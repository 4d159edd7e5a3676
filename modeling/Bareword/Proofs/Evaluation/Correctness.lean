import Bareword.Proofs.Evaluation.Limits
import Bareword.Proofs.Evaluation.Programs

/-! # Compiled programs do what their trees mean

* `Program.storesTemporary`: a name under which a program keeps a value that goes through a pipe.
* `Shows`: a run of a machine shows what evaluation came to.
* `Script.compiled_run_shows_evaluation`: every script that reads none of its temporary variables.
-/

namespace Bareword
set_option autoImplicit false
open Report (Stop)
open Bareword.Tree (Node)

/-- Whether the program keeps a value that goes through a pipe in the variable of this name. -/
def Program.storesTemporary (p : Program) (name : Text) : Bool :=
  isTemporary name && p.instructions.any fun i => i.op == .store && i.name == name

/-- The variables that a machine has before it runs. -/
def Machine.variables (m : Machine) : Closure.Vars := (m.store.getD Store.globals {}).vars

/-- What the tree of a script is evaluated with when at most so many values can be held. -/
def Script.setting (s : Script) (host : Host) (capacity : Nat) : Evaluation.Setting :=
  { host, source := s.source, filename := s.filename, capacity }

namespace Evaluation
open Machine (View Goes Trouble)

/-! ## What a run shows -/

/-- The stop that trouble with its place leads to. -/
def stopFor : Trouble → Stop
  | .fault e => .fault (.running e)
  | .breakdown => .breakdown
  | .awaiting path => .awaiting path

/-- A global variable after evaluation. Temporary names are not shown. -/
def global? (s : State) (name : Text) : Option Value :=
  if Program.isTemporary name then none
  else s.store[Store.globals]?.bind fun env => env.vars.lookup name

/-- The output and the global variables are those of evaluation, apart from the indices of function
bodies. -/
structure Leaves (s : State) (o : Machine.Outcome) : Prop where
  output : o.output = s.output
  globals : ∀ name, (o.machine.global? name).map Value.erase = global? s name

/-- The run answers what evaluation comes to, or stops for the same reason at the same place. -/
def Shows (o : Machine.Outcome) : EStateM.Result Trouble State Value → Prop
  | .ok a s => (∃ v, o.result = .ok v ∧ v.erase = a) ∧ Leaves s o
  | .error e s => o.result = .error (stopFor e) ∧ Leaves s o

theorem global?_of_agrees {G : Ground} {functions : List Lambda} {a b : Store}
    (h : StoreAgrees G functions a b) {name : Text} (hn : Program.isTemporary name = false) :
    (a[Store.globals]?.bind fun env => env.vars.lookup name).map Value.erase =
      b[Store.globals]?.bind fun env => env.vars.lookup name := by
  have hhidden : G.hidden name = false := by
    cases hh : G.hidden name with
    | false => rfl
    | true =>
      rw [G.temporary name hh] at hn
      cases hn
  cases hx : a[Store.globals]? with
  | none =>
    rw [h.get_none hx]
    rfl
  | some x =>
    obtain ⟨y, hy, hxy⟩ := h.get_some hx
    rw [hy]
    exact (hxy.lookup hhidden).symm

theorem leaves_of_agrees {G : Ground} {s : State} {v : View} (h : Agrees G s v)
    {o : Machine.Outcome} (hout : o.output = v.output) (hstore : o.machine.store = v.store) :
    Leaves s o := by
  refine ⟨hout.trans h.output, fun name => ?_⟩
  rw [Machine.global?, global?]
  cases hn : Program.isTemporary name with
  | true => rfl
  | false =>
    rw [hstore]
    exact global?_of_agrees h.store hn

/-! ## Runs -/

/-- What a linked program is evaluated with, when temporary variables are hidden. -/
def ground (im : Image) (p : Program) (w : Setting) (hw : w.capacity = Stack.limit)
    (hkeeps : ∀ i' ∈ im.code.instructions, ∃ i ∈ p.instructions, Image.Keeps i i') : Ground where
  image := im
  setting := w
  hidden := p.storesTemporary
  capacity := hw
  temporary name h := by
    rw [Program.storesTemporary, Bool.and_eq_true] at h
    exact h.1
  stores n i' hi hop htemp := by
    obtain ⟨i, hmem, hk⟩ := hkeeps i' (Array.mem_of_getElem? hi.fetch)
    rw [Program.storesTemporary, htemp, Bool.true_and, List.any_eq_true]
    exact ⟨i, hmem, by simp [← hk.op, ← hk.name, hop]⟩

section Runs
variable {G : Ground} {im : Image} {m : Machine} {vars : List (Text × Value)} {p : Program}

/-- A fault of the machine gets the place of the instruction that it arose at. -/
theorem stopOf_located (hb : m.Built vars p G.image) (hs : G.setting.source = p.source)
    (hf : G.setting.filename = p.filename) {n : Nat} {i : Instruction}
    (hi : G.image.code.Holds n i) (e : Trouble) :
    Machine.stopOf m.program (Int64.ofNat (n + 1)) e = stopFor (G.setting.located i.span e) := by
  cases e with
  | breakdown => rfl
  | awaiting path => rfl
  | fault e =>
    have hlt := (Array.getElem?_eq_some_iff.mp hi.fetch).1
    have hindex : (Int64.ofNat (n + 1)).toInt - 1 = (n : Int) := by
      rw [Int64.toInt_ofNat_of_lt (Nat.lt_of_le_of_lt hlt hi.small)]
      omega
    have hget : m.program.instructions[n]? = some i := by
      rw [hb.instructions, ← hb.code, Array.getElem?_toList]
      exact hi.fetch
    rw [Machine.stopOf, Machine.locate, hindex, Int.toNat_natCast, hget, Setting.located, stopFor,
      hb.source, hb.filename, hs, hf]
    have hneg : ¬ (n : Int) < 0 := by omega
    simp only [hneg, false_or]

/-- The state at the start of the first run. -/
theorem startState_view (hb : m.Built vars p im) :
    m.startState.view = ⟨0, [], [], Store.globals, m.store, 0, []⟩ := by
  rw [Machine.startState, hb.stack, hb.made]
  rfl

theorem run_of_loop (hb : m.Built vars p im) {host : Host} {fuel : Nat}
    {ending : Except Trouble Unit} {s : Machine.State}
    (h : Machine.loop m.code host fuel m.startState = some (ending, s)) :
    m.run { host, fuel } = some (m.ended ending s) := by
  rw [Machine.run, hb.isRunning, if_neg (by simp), if_neg (by simp)]
  dsimp only
  rw [h]
  rfl

/-- With enough fuel a machine answers the value that is alone on the stack where it gets to a halt. -/
theorem run_of_goes (hb : m.Built vars p im) {host : Host} {v : View} {n : Nat} {i : Instruction} {b : Value}
    (hg : Goes im.code host m.startState.view v) (hi : im.code.Holds n i) (hop : i.op = .halt)
    (hip : v.ip = Int64.ofNat n) (hlive : v.live = [b]) :
    ∃ steps, ∀ fuel ≥ steps, ∃ o, m.run { host, fuel } = some o ∧ o.result = .ok b ∧ o.output = v.output ∧
      o.machine.store = v.store := by
  obtain ⟨steps, s₁, hs₁, hloop⟩ := hg.loop m.startState rfl
  have hhalt : Machine.Yields (Machine.step im.code host) v true _ := Machine.yields_halt hi hop hip
  obtain ⟨s₂, hstep, hs₂⟩ := hhalt s₁ hs₁
  refine ⟨steps + 1, fun fuel hfuel => ?_⟩
  obtain ⟨more, rfl⟩ := Nat.exists_eq_add_of_le hfuel
  have hend : Machine.loop m.code host (steps + 1 + more) m.startState = some (.ok (), s₂) := by
    rw [← hb.code, Nat.add_assoc, hloop, Nat.add_comm, Machine.loop, hstep]
  have htop : s₂.stack.live = [b] := (congrArg View.live hs₂).trans hlive
  refine ⟨_, run_of_loop hb hend, ?_, congrArg View.output hs₂, congrArg View.store hs₂⟩
  rw [Machine.ended]
  dsimp only
  rw [Stack.top?, htop]
  rfl

theorem shows_of_value (hb : m.Built vars p G.image) {v : View} {n : Nat} {i : Instruction}
    {b : Value} {s : State} (hg : Goes G.image.code G.setting.host m.startState.view v)
    (hi : G.image.code.Holds n i) (hop : i.op = .halt) (hip : v.ip = Int64.ofNat n)
    (hlive : v.live = [b]) (ha : Agrees G s v) :
    ∃ steps, ∀ fuel ≥ steps, ∃ o, m.run { host := G.setting.host, fuel } = some o ∧
      Shows o (.ok b.erase s) := by
  obtain ⟨steps, hrun⟩ := run_of_goes hb hg hi hop hip hlive
  refine ⟨steps, fun fuel hfuel => ?_⟩
  obtain ⟨o, ho, hresult, hout, hstore⟩ := hrun fuel hfuel
  exact ⟨o, ho, ⟨b, hresult, rfl⟩, leaves_of_agrees ha hout hstore⟩

theorem shows_of_fails (hb : m.Built vars p G.image) (hsource : G.setting.source = p.source)
    (hfile : G.setting.filename = p.filename) {e : Trouble} {s : State}
    (h : Fails G m.startState.view e s) :
    ∃ steps, ∀ fuel ≥ steps, ∃ o, m.run { host := G.setting.host, fuel } = some o ∧
      Shows o (.error e s) := by
  obtain ⟨v₁, v₂, trouble, n, i, hg, hrefuses, hip, hi, rfl, ha⟩ := h
  obtain ⟨steps, s₁, hs₁, hloop⟩ := hg.loop m.startState rfl
  obtain ⟨s₂, hstep, hs₂⟩ := hrefuses s₁ hs₁
  refine ⟨steps + 1, fun fuel hfuel => ?_⟩
  obtain ⟨more, rfl⟩ := Nat.exists_eq_add_of_le hfuel
  have hend : Machine.loop m.code G.setting.host (steps + 1 + more) m.startState =
      some (.error trouble, s₂) := by
    rw [← hb.code, Nat.add_assoc, hloop, Nat.add_comm, Machine.loop, hstep]
  refine ⟨_, run_of_loop hb hend, ?_, leaves_of_agrees ha (congrArg View.output hs₂) (congrArg View.store hs₂)⟩
  have hip₂ : s₂.ip = Int64.ofNat (n + 1) := (congrArg View.ip hs₂).trans hip
  rw [Machine.ended]
  dsimp only
  rw [hip₂, stopOf_located hb hsource hfile hi]

/-- A run of a program shows what evaluation of its tree comes to. -/
theorem run_shows (hb : m.Built vars p G.image) {tree : Node} {es : List Expr}
    {source filename : Text} (hp : p = Expr.compile source filename es)
    (hs : G.setting.source = source) (hf : G.setting.filename = filename)
    (hes : Expr.ofProgram tree = .ok es) (hclear : G.Clear tree)
    (hvars : Value.FineVars (Value.onClosures fun _ => False) m.variables) :
    ∃ steps, ∀ fuel ≥ steps, ∃ o, m.run { host := G.setting.host, fuel } = some o ∧
      Shows o (evaluate G.setting (Machine.maxFrames - 1) m.variables tree) := by
  subst hp
  have hstart := startState_view hb
  have hstore : m.store = #[{ vars := m.variables }] := by
    rw [Machine.variables, hb.store]
    rfl
  have hgood : Value.FineVars (Value.onClosures (Known G [])) m.variables :=
    hvars.mono (Value.onClosures.mono fun _ h => h.elim)
  have herase : Value.eraseVars m.variables = m.variables := by
    exact Value.renameVars_of_fine _ hvars
  have hagrees : Agrees G { store := #[{ vars := m.variables }] } m.startState.view := by
    rw [hstart, hstore]
    refine ⟨rfl, rfl, rfl, fun j x y hx hy => ?_⟩
    rw [hx] at hy
    cases hy
    have hx' : x = { vars := m.variables } := by
      have hmem := Array.mem_of_getElem? hx
      simpa using hmem
    subst hx'
    exact ⟨rfl, by rw [← G.visible_erase, herase], hgood⟩
  have hready : Ready G (Machine.maxFrames - 1) none [] 0 ⟨Store.globals, 0⟩ [] m.startState.view
      { store := #[{ vars := m.variables }] } := by
    refine ⟨by rw [hstart]; rfl, by rw [hstart], ?_, hagrees, ?_, rfl, ⟨[], ?_, rfl, ?_⟩, ?_, ?_⟩
    · rw [hstart]
      rfl
    · rw [hstart, hstore]
      exact Nat.zero_lt_one
    · rw [hstart]
      rfl
    · exact List.forall_mem_nil _
    · rw [hstart]
      exact Nat.zero_le _
    · exact fun _ h => by cases h
  obtain ⟨hcode, hhalt⟩ := Image.placed_append (Image.placed_compile hb.loaded)
  obtain ⟨st⟩ := Image.placed_instr rfl hhalt
  have hends := (sim_program hclear hes 0).run {} 0 ⟨Store.globals, 0⟩ [] _ _ (Nat.le_refl _) hcode
    hready
  rw [evaluate]
  cases hresult : evalBlock G.setting (evalNode G.setting (enterWithin G.setting (Machine.maxFrames - 1)))
      .zero ⟨Store.globals, 0⟩ tree.children { store := #[{ vars := m.variables }] } with
  | error e s =>
    rw [hresult] at hends
    exact shows_of_fails hb hs hf hends
  | ok a s =>
    rw [hresult] at hends
    obtain ⟨v, hmoves, hr⟩ := hends
    obtain ⟨b, hlive, rfl, -, -⟩ := hr.top
    exact shows_of_value hb hmoves.goes st.holds st.keeps.op hr.ip hlive hr.agrees

end Runs
end Evaluation

/-! ## Scripts -/

theorem Script.compile_eq_ok {s : Script} {p : Program} (h : s.compile = .ok p) :
    ∃ es, Expr.ofProgram s.parse.tree = .ok es ∧ p = Expr.compile s.source s.filename es := by
  rw [Script.compile] at h
  split at h
  · cases h
  · exact Program.ofTree_eq_ok h

theorem Script.machine_eq_ok {registry : Option Registry} {globals : List (Text × Datum)}
    {p : Program} {m : Machine} (h : Script.machine registry globals p = .ok m) :
    ∃ given, Value.ofGlobals globals = .ok given ∧
      Machine.ofProgram (Script.builtins registry ++ given) p = .ok m := by
  rw [Script.machine, Script.machineWith] at h
  split at h
  · cases h
  · rename_i given hgiven
    exact ⟨given, hgiven, h⟩

/-- The builtins and the global variables that a machine starts with hold no functions of the language if the
data that it is given hold none. -/
theorem Script.fine_variables {registry : Option Registry} {globals : List (Text × Datum)}
    {given : List (Text × Value)} (h : Value.ofGlobals globals = .ok given)
    (hdata : ∀ x ∈ globals, x.2.Fine (Value.onClosures fun _ => False)) :
    Value.FineVars (Value.onClosures fun _ => False)
      ((Script.builtins registry ++ given).foldl (fun vars (n, v) => Store.assign n v vars) []) := by
  refine Value.FineVars.assignAll (fun x hx => ?_) (List.forall_mem_nil _)
  rcases List.mem_append.mp hx with hx | hx
  · obtain ⟨b, -, rfl⟩ := List.mem_map.mp hx
    exact trivial
  · exact Value.fine_ofGlobals h hdata x hx

/-- A script that reads no temporary variable of its own program does what its tree means: its run
ends, and it shows what evaluation within the limits of the machine comes to. Evaluation with larger
limits, or with none to speak of, comes to the same unless the machine is at its limits. The script may be
given any values in which there is neither a function of another program, which has no tree to be evaluated,
nor a hole. -/
theorem Script.compiled_run_shows_evaluation (s : Script) (host : Host) {p : Program} {m : Machine}
    (hp : s.compile = .ok p) (hsmall : p.instructions.length < 2 ^ 63)
    (hm : Script.machine s.registry s.globals p = .ok m)
    (hdata : ∀ x ∈ s.globals, x.2.Fine (Value.onClosures fun _ => False))
    (hnames : ∀ n ∈ s.parse.tree.preorder, n.kind = .identifier ∨ n.kind = .assignable →
      p.storesTemporary n.text = false) :
    ∃ steps, ∀ fuel ≥ steps, ∃ o, m.run { host, fuel } = some o ∧
      Evaluation.Shows o (Evaluation.evaluate (s.setting host Stack.limit) (Machine.maxFrames - 1)
        m.variables s.parse.tree) ∧
      ∀ capacity calls, Stack.limit ≤ capacity → Machine.maxFrames - 1 ≤ calls →
        Evaluation.Shows o
          (Evaluation.evaluate (s.setting host capacity) calls m.variables s.parse.tree) ∨
        ∃ e, o.result = .error (Evaluation.stopFor e) ∧ Evaluation.Overflows e := by
  obtain ⟨es, hes, hcompile⟩ := Script.compile_eq_ok hp
  obtain ⟨given, hgiven, hprogram⟩ := Script.machine_eq_ok hm
  have hlinked : p.linked = false := by rw [hcompile]; rfl
  obtain ⟨im, hb⟩ := Machine.built_of_ofProgram hlinked hsmall hprogram
  let G := Evaluation.ground im p (s.setting host Stack.limit) rfl hb.keeps
  have hvars : Value.FineVars (Value.onClosures fun _ => False) m.variables := by
    rw [Machine.variables, hb.store]
    exact Script.fine_variables hgiven hdata
  have hb' : m.Built (Script.builtins s.registry ++ given) p G.image := hb
  obtain ⟨steps, hrun⟩ := Evaluation.run_shows hb' hcompile rfl rfl hes hnames hvars
  refine ⟨steps, fun fuel hfuel => ?_⟩
  obtain ⟨o, ho, hshows⟩ := hrun fuel hfuel
  refine ⟨o, ho, hshows, fun capacity calls hcap hcalls => ?_⟩
  have hmono := Evaluation.evaluate_mono (w := s.setting host Stack.limit) hcap hcalls m.variables
    s.parse.tree
  rcases hmono with heq | ⟨e, s', herror, hover⟩
  · left
    have hlarge : Evaluation.Shows o (Evaluation.evaluate
        { s.setting host Stack.limit with capacity } calls m.variables s.parse.tree) := heq ▸ hshows
    exact hlarge
  · right
    have hfail : Evaluation.Shows o (.error e s') := herror ▸ hshows
    exact ⟨e, hfail.1, hover⟩

/-- Whether a tree of a script compiles to a program that can be run and none of whose temporary
variables is named in the tree. -/
def Script.readsNoTemporary (s : Script) (tree : Node) : Bool :=
  match Program.ofTree s.source s.filename (some tree) with
  | .error _ => false
  | .ok p =>
    decide (p.instructions.length < 2 ^ 63) &&
      (match Script.machine s.registry s.globals p with | .ok _ => true | .error _ => false) &&
      tree.preorder.all fun n =>
        !(n.kind == .identifier || n.kind == .assignable) || !p.storesTemporary n.text

theorem Script.of_readsNoTemporary {s : Script} (hf : s.parse.failure? = none)
    (h : s.readsNoTemporary s.parse.tree = true) :
    ∃ p m, s.compile = .ok p ∧ p.instructions.length < 2 ^ 63 ∧
      Script.machine s.registry s.globals p = .ok m ∧
      ∀ n ∈ s.parse.tree.preorder, n.kind = .identifier ∨ n.kind = .assignable →
        p.storesTemporary n.text = false := by
  unfold Script.readsNoTemporary at h
  split at h
  · cases h
  · rename_i p hp
    rw [Bool.and_eq_true, Bool.and_eq_true, decide_eq_true_eq, List.all_eq_true] at h
    obtain ⟨⟨hsmall, hmachine⟩, hnames⟩ := h
    split at hmachine
    · rename_i m hm
      refine ⟨p, m, ?_, hsmall, hm, fun n hn hk => ?_⟩
      · rw [Script.compile, hf]
        exact hp
      · have hname := hnames n hn
        rcases hk with hk | hk <;> simpa [hk] using hname
    · cases hmachine

/-- A number that goes through a pipe into a builtin. -/
theorem Script.compiled_run_shows_evaluation_one_type :
    let s : Script := { source := "1 | type" }
    let host : Host := ⟨fun _ => none, []⟩
    ∃ p m, s.compile = .ok p ∧ Script.machine none [] p = .ok m ∧
      ∃ steps, ∀ fuel ≥ steps, ∃ o, m.run { host, fuel } = some o ∧
        Evaluation.Shows o (Evaluation.evaluate (s.setting host Stack.limit) (Machine.maxFrames - 1)
          m.variables s.parse.tree) ∧
        ∀ capacity calls, Stack.limit ≤ capacity → Machine.maxFrames - 1 ≤ calls →
          Evaluation.Shows o
            (Evaluation.evaluate (s.setting host capacity) calls m.variables s.parse.tree) ∨
          ∃ e, o.result = .error (Evaluation.stopFor e) ∧ Evaluation.Overflows e := by
  intro s host
  let tree : Node :=
    { kind := .program, span := ⟨0, 8⟩
      children := [
        { kind := .pipeExpr, span := ⟨0, 8⟩
          children := [
            { kind := .number, span := ⟨0, 1⟩, text := "1" },
            { kind := .operator, span := ⟨2, 3⟩, text := "|" },
            { kind := .callOrIdentifier, span := ⟨4, 8⟩
              children := [{ kind := .identifier, span := ⟨4, 8⟩, text := "type" }] }] }] }
  have hparse : (s.parse.tree, s.parse.failure?) = (tree, none) := by cbv
  obtain ⟨htree, hfailure⟩ := Prod.mk.inj hparse
  have hs : s.readsNoTemporary s.parse.tree = true := by
    rw [htree]
    decide +kernel
  obtain ⟨p, m, hp, hsmall, hm, hnames⟩ := Script.of_readsNoTemporary hfailure hs
  exact ⟨p, m, hp, hm, Script.compiled_run_shows_evaluation s host hp hsmall hm (List.forall_mem_nil _) hnames⟩

end Bareword
