import Bareword.Proofs.Program.Symbolic
import Mathlib.Logic.Relation

/-! # Linking preserves meaning

Every step of a program that is run with its labels in place is either silent, because there is a label, or
it is a step of the machine of the linked program. The states of the two differ in addresses only: in the
next instruction, in where calls go back to and in where functions start.

* `Machine.Continues`, `Machine.Ends`: the steps of a run, and how it ends.
* `Machine.Simulates`: the linked code takes the steps of the other code that are not silent.
* `Program.link_preserves_meaning`: the machine of a linked program does what the program means.
-/

namespace Bareword
set_option autoImplicit false
open Machine (usesTarget State Trouble)

namespace Machine

/-! ## Runs -/

/-- The next step of a run. Where it breaks down it may have called a builtin from outside; the run then
goes on with the answer of the builtin, which may have written something. -/
inductive Continues (act : Exec Bool) (answers : Value → Prop) (s t : State) : Prop where
  | own (h : act s = .ok false t)
  | answered {u : State} {v : Value} (written : Text) (h : act s = .error .breakdown u) (hv : answers v)
      (hpush : push v { u with output := written } = .ok () t)

/-- A run ends, and how it does. -/
inductive Ends (act : Exec Bool) : State → Except Trouble Unit → State → Prop where
  | halted {s t : State} (h : act s = .ok true t) : Ends act s (.ok ()) t
  | stopped {s t : State} {e : Trouble} (h : act s = .error e t) : Ends act s (.error e) t
  | goes {s t u : State} {ending : Except Trouble Unit} (h : act s = .ok false t)
      (hrest : Ends act t ending u) : Ends act s ending u

theorem loop_iff_ends {code : Code} {host : Host} {s t : State} {ending : Except Trouble Unit} :
    (∃ fuel, loop code host fuel s = some (ending, t)) ↔ Ends (step code host) s ending t := by
  constructor
  · rintro ⟨fuel, h⟩
    induction fuel generalizing s with
    | zero => cases h
    | succ fuel ih =>
      rw [loop] at h
      cases hs : step code host s with
      | error e u =>
        rw [hs] at h
        cases h
        exact .stopped hs
      | ok halts u =>
        rw [hs] at h
        cases halts with
        | true =>
          cases h
          exact .halted hs
        | false => exact .goes hs (ih h)
  · intro h
    induction h with
    | halted h => exact ⟨1, by rw [loop, h]⟩
    | stopped h => exact ⟨1, by rw [loop, h]⟩
    | goes h _ ih =>
      obtain ⟨fuel, hfuel⟩ := ih
      exact ⟨fuel + 1, by rw [loop, h]; exact hfuel⟩

/-- Two runs end alike: in the same way, or both by leaving their program, whose indices differ. -/
inductive Alike : Except Trouble Unit → Except Trouble Unit → Prop where
  | same (ending : Except Trouble Unit) : Alike ending ending
  | outside (ip ip' : Int64) : Alike (.error (outside ip)) (.error (outside ip'))

theorem run_iff_ends {m : Machine} (hm : m.isRunning = false) {host : Host} {o : Outcome} :
    (∃ fuel, m.run { host, fuel } = some o) ↔
      ∃ ending t, Ends (step m.code host) m.startState ending t ∧ o = m.ended ending t := by
  have hrun : ∀ fuel, m.run { host, fuel } =
      (loop m.code host fuel m.startState).map fun r => m.ended r.1 r.2 := by
    intro fuel
    rw [run, if_neg (by simp [hm]), if_neg (by simp)]
    rfl
  constructor
  · rintro ⟨fuel, h⟩
    rw [hrun, Option.map_eq_some_iff] at h
    obtain ⟨⟨ending, t⟩, hloop, ho⟩ := h
    exact ⟨ending, t, loop_iff_ends.mp ⟨fuel, hloop⟩, ho.symm⟩
  · rintro ⟨ending, t, hends, rfl⟩
    obtain ⟨fuel, hloop⟩ := loop_iff_ends.mpr hends
    exact ⟨fuel, by rw [hrun, hloop]; rfl⟩

/-! ## Simulation -/

/-- The linked code does what direct runs of the other code do: labels are silent, and every other step is
matched by one step, which leads to the same state with the addresses of linked code. -/
structure Simulates (entry : Int64 → Int64) (code linked : Code) : Prop where
  small : code.instructions.size < 2 ^ 63
  silent : ∀ (host : Host) {s : State} {i : Instruction}, code.get? s.ip = some i → i.isLabel = true →
    walk code host s = .ok false { s with ip := s.ip + 1 } ∧
      State.rename { entry } { s with ip := s.ip + 1 } = s.rename { entry }
  lockstep : ∀ (host : Host) {s : State} {i : Instruction}, code.get? s.ip = some i → i.isLabel = false →
    step linked host (s.rename { entry }) = mapResult (State.rename { entry }) id (walk code host s)
  leaves : ∀ (host : Host) {s : State}, code.get? s.ip = none →
    walk code host s = .error (outside s.ip) s ∧
      step linked host (s.rename { entry }) = .error (outside (entry s.ip)) (s.rename { entry })

namespace Simulates
variable {entry : Int64 → Int64} {code linked : Code} {host : Host} {s : State}

/-- Silent steps lead to a state whose next step is not silent. -/
theorem exists_awake (h : Simulates entry code linked) (host : Host) (s : State) :
    ∃ t, Relation.ReflTransGen (fun a b => walk code host a = .ok false b) s t ∧
      s.rename { entry } = t.rename { entry } ∧
      (step linked host (t.rename { entry }) = mapResult (State.rename { entry }) id (walk code host t) ∨
        (walk code host t = .error (outside t.ip) t ∧
          step linked host (t.rename { entry }) = .error (outside (entry t.ip)) (t.rename { entry }))) := by
  -- Every silent step leaves fewer instructions ahead.
  generalize hn : code.instructions.size - s.ip.toInt.toNat = n
  induction n using Nat.strongRecOn generalizing s with
  | ind n ih =>
    cases hget : code.get? s.ip with
    | none => exact ⟨s, .refl, rfl, .inr (h.leaves host hget)⟩
    | some i =>
      cases hi : i.isLabel with
      | false => exact ⟨s, .refl, rfl, .inl (h.lockstep host hget hi)⟩
      | true =>
        obtain ⟨hstep, hrename⟩ := h.silent host hget hi
        obtain ⟨k, hk, hip, hfetch⟩ := Code.get?_eq_some hget
        have hlt := (Array.getElem?_eq_some_iff.mp hfetch).1
        have hsmall := h.small
        have hnext : (s.ip + 1).toInt = k + 1 := by
          rw [hip, ofNat_add_one, Int64.toInt_ofNat_of_lt (by omega)]
          rfl
        have hless : code.instructions.size - (s.ip + 1).toInt.toNat < n := by omega
        obtain ⟨t, hpath, ht, hawake⟩ := ih _ hless { s with ip := s.ip + 1 } rfl
        exact ⟨t, .head hstep hpath, hrename.symm.trans ht, hawake⟩

/-- A linked step is a direct one after some silent steps. -/
theorem walk_of_ok (h : Simulates entry code linked) {halts : Bool} {t : State}
    (hstep : step linked host (s.rename { entry }) = .ok halts t) :
    ∃ r u, Relation.ReflTransGen (fun a b => walk code host a = .ok false b) s r ∧
      walk code host r = .ok halts u ∧ t = u.rename { entry } := by
  obtain ⟨r, hpath, hr, hlock | ⟨-, hleaves⟩⟩ := h.exists_awake host s
  · rw [hr, hlock] at hstep
    obtain ⟨u, hwalk, hu⟩ := ok_of_mapResult hstep
    exact ⟨r, u, hpath, hwalk, hu⟩
  · rw [hr, hleaves] at hstep
    cases hstep

theorem walk_of_error (h : Simulates entry code linked) {e : Trouble} {t : State}
    (hstep : step linked host (s.rename { entry }) = .error e t) :
    ∃ r e' u, Relation.ReflTransGen (fun a b => walk code host a = .ok false b) s r ∧
      walk code host r = .error e' u ∧ Alike (.error e') (.error e) ∧ t = u.rename { entry } := by
  obtain ⟨r, hpath, hr, hlock | ⟨hwalk, hleaves⟩⟩ := h.exists_awake host s
  · rw [hr, hlock] at hstep
    obtain ⟨u, hwalk, hu⟩ := error_of_mapResult hstep
    exact ⟨r, _, u, hpath, hwalk, .same _, hu⟩
  · rw [hr, hleaves] at hstep
    cases hstep
    exact ⟨r, _, r, hpath, hwalk, .outside _ _, rfl⟩

theorem ends_of_silent {t u : State} {ending : Except Trouble Unit}
    (hpath : Relation.ReflTransGen (fun a b => walk code host a = .ok false b) s t)
    (h : Ends (walk code host) t ending u) : Ends (walk code host) s ending u := by
  induction hpath using Relation.ReflTransGen.head_induction_on with
  | refl => exact h
  | head hstep _ ih => exact .goes hstep ih

/-- A direct step is silent, or it is matched by a linked step, or both runs leave their programs. -/
theorem step_cases (h : Simulates entry code linked) (host : Host) (s : State) :
    (walk code host s = .ok false { s with ip := s.ip + 1 } ∧
        State.rename { entry } { s with ip := s.ip + 1 } = s.rename { entry }) ∨
      step linked host (s.rename { entry }) = mapResult (State.rename { entry }) id (walk code host s) ∨
      (walk code host s = .error (outside s.ip) s ∧
        step linked host (s.rename { entry }) = .error (outside (entry s.ip)) (s.rename { entry })) := by
  cases hget : code.get? s.ip with
  | none => exact .inr (.inr (h.leaves host hget))
  | some i =>
    cases hi : i.isLabel with
    | true => exact .inl (h.silent host hget hi)
    | false => exact .inr (.inl (h.lockstep host hget hi))

/-- What a value from outside is in the linked run. -/
def Renamed (entry : Int64 → Int64) (answers : Value → Prop) (v : Value) : Prop :=
  ∃ w, answers w ∧ v = w.rename { entry }

/-- Where a direct run gets, a linked run gets. -/
theorem reaches (h : Simulates entry code linked) {answers : Value → Prop} {t : State}
    (hrun : Relation.ReflTransGen (Continues (walk code host) answers) s t) :
    Relation.ReflTransGen (Continues (step linked host) (Renamed entry answers)) (s.rename { entry }) (t.rename { entry }) := by
  induction hrun with
  | refl => exact .refl
  | @tail u t _ hstep ih =>
    obtain ⟨hwalk, hrename⟩ | hlock | ⟨hwalk, -⟩ := h.step_cases host u
    · rw [← hrename] at ih
      cases hstep with
      | own hown =>
        rw [hwalk] at hown
        cases hown
        exact ih
      | answered _ hbreaks =>
        rw [hwalk] at hbreaks
        cases hbreaks
    · refine ih.tail ?_
      cases hstep with
      | own hown =>
        rw [hown] at hlock
        exact .own hlock
      | @answered r v written hbreaks hv hpush =>
        rw [hbreaks] at hlock
        have hanswer := (@follows_push (.relinking entry) v { r with output := written }).1
        rw [hpush] at hanswer
        exact .answered written hlock ⟨v, hv, rfl⟩ hanswer
    · cases hstep with
      | own hown =>
        rw [hwalk] at hown
        cases hown
      | answered _ hbreaks =>
        rw [hwalk] at hbreaks
        cases hbreaks

/-- Where a linked run gets, a direct run gets. -/
theorem reached_by (h : Simulates entry code linked) {answers : Value → Prop} {t : State}
    (hrun : Relation.ReflTransGen (Continues (step linked host) (Renamed entry answers)) (s.rename { entry }) t) :
    ∃ u, Relation.ReflTransGen (Continues (walk code host) answers) s u ∧ t = u.rename { entry } := by
  induction hrun with
  | refl => exact ⟨s, .refl, rfl⟩
  | @tail t t' _ hstep ih =>
    obtain ⟨u, hu, rfl⟩ := ih
    cases hstep with
    | own hown =>
      obtain ⟨r, x, hpath, hwalk, rfl⟩ := h.walk_of_ok hown
      exact ⟨x, (hu.trans (hpath.lift id fun _ _ => .own)).tail (.own hwalk), rfl⟩
    | answered written hbreaks hv hpush =>
      obtain ⟨r, e, x, hpath, hwalk, halike, rfl⟩ := h.walk_of_error hbreaks
      cases halike
      obtain ⟨w, hw, rfl⟩ := hv
      have hfollows := (@follows_push (.relinking entry) w { x with output := written }).1
      obtain ⟨y, hanswer, hy⟩ := ok_of_mapResult (hfollows.symm.trans hpush)
      exact ⟨y, (hu.trans (hpath.lift id fun _ _ => .own)).tail (.answered written hwalk hw hanswer), hy⟩

/-- How a direct run ends, a linked run ends. -/
theorem ends (h : Simulates entry code linked) {ending : Except Trouble Unit} {t : State}
    (hrun : Ends (walk code host) s ending t) :
    ∃ ending', Alike ending ending' ∧ Ends (step linked host) (s.rename { entry }) ending' (t.rename { entry }) := by
  induction hrun with
  | @halted s t hown =>
    obtain ⟨hwalk, -⟩ | hlock | ⟨hwalk, -⟩ := h.step_cases host s
    · rw [hwalk] at hown
      cases hown
    · rw [hown] at hlock
      exact ⟨_, .same _, .halted hlock⟩
    · rw [hwalk] at hown
      cases hown
  | @stopped s t e hown =>
    obtain ⟨hwalk, -⟩ | hlock | ⟨hwalk, hlinked⟩ := h.step_cases host s
    · rw [hwalk] at hown
      cases hown
    · rw [hown] at hlock
      exact ⟨_, .same _, .stopped hlock⟩
    · rw [hwalk] at hown
      cases hown
      exact ⟨_, .outside _ _, .stopped hlinked⟩
  | @goes s t u ending hown _ ih =>
    obtain ⟨hwalk, hrename⟩ | hlock | ⟨hwalk, -⟩ := h.step_cases host s
    · rw [hwalk] at hown
      cases hown
      rw [hrename] at ih
      exact ih
    · rw [hown] at hlock
      obtain ⟨ending', halike, hrest⟩ := ih
      exact ⟨ending', halike, .goes hlock hrest⟩
    · rw [hwalk] at hown
      cases hown

/-- How a linked run ends, a direct run ends. -/
theorem ended_by (h : Simulates entry code linked) {ending : Except Trouble Unit} {r t : State}
    (hrun : Ends (step linked host) r ending t) (hr : r = s.rename { entry }) :
    ∃ ending' u, Alike ending' ending ∧ Ends (walk code host) s ending' u ∧ t = u.rename { entry } := by
  induction hrun generalizing s with
  | halted hown =>
    rw [hr] at hown
    obtain ⟨a, u, hpath, hwalk, rfl⟩ := h.walk_of_ok hown
    exact ⟨_, u, .same _, ends_of_silent hpath (.halted hwalk), rfl⟩
  | stopped hown =>
    rw [hr] at hown
    obtain ⟨a, e, u, hpath, hwalk, halike, rfl⟩ := h.walk_of_error hown
    exact ⟨_, u, halike, ends_of_silent hpath (.stopped hwalk), rfl⟩
  | goes hown _ ih =>
    rw [hr] at hown
    obtain ⟨a, u, hpath, hwalk, hu⟩ := h.walk_of_ok hown
    obtain ⟨ending', x, halike, hends, rfl⟩ := ih hu
    exact ⟨ending', x, halike, ends_of_silent hpath (.goes hwalk hends), rfl⟩

end Simulates
end Machine

/-! ## Linked programs -/

namespace Program

/-- What lies outside a program has no instruction after linking either. -/
theorem Linked.get?_none {p q : Program} {table : List (Text × Nat)} (h : Linked p q table)
    (hsmall : p.instructions.length < 2 ^ 62) {values values' : List Value} {ip : Int64}
    (hget : (p.codeWith values).get? ip = none) :
    (q.codeWith values').get? (address p.instructions ip) = none := by
  have hlength := Image.resolveAll_length h.resolved
  have hsize : Instruction.size p.instructions ≤ p.instructions.length := List.countP_le_length
  have houtside : address p.instructions ip < 0 ∨
      q.instructions.length ≤ (address p.instructions ip).toInt.toNat := by
    rw [Machine.Code.get?] at hget
    rw [Int64.lt_iff_toInt_lt, Int64.toInt_zero]
    split at hget
    · rename_i hneg
      rw [Int64.lt_iff_toInt_lt, Int64.toInt_zero] at hneg
      rw [address, if_neg (by omega)]
      exact .inl hneg
    · have hpast : p.instructions.length ≤ ip.toInt.toNat := by
        simpa [codeWith] using hget
      right
      rw [address]
      split
      · have hend : p.instructions.take ip.toInt.toNat = p.instructions := List.take_of_length_le hpast
        rw [hend, Int64.toInt_ofNat_of_lt (by omega)]
        omega
      · omega
  rw [Machine.Code.get?]
  split
  · rfl
  · rename_i hneg
    exact Array.getElem?_eq_none (houtside.resolve_left hneg)

/-- An instruction pushes the same value before and after linking, and no address is in it. -/
theorem constant_rename {p q : Program} {values values' : List Value}
    (hvalues : Machine.constants 0 p.instructions = .ok values)
    (hvalues' : Machine.constants 0 q.instructions = .ok values') {k n : Nat} {i i' : Instruction}
    (hk : p.instructions[k]? = some i) (hn : q.instructions[n]? = some i') (hkeeps : Image.Keeps i i')
    (hop : i.op = .push) (ρ : Renaming) :
    (q.codeWith values').constants.getD n .hole = ((p.codeWith values).constants.getD k .hole).rename ρ := by
  obtain ⟨v, hv, hvk⟩ := Image.constants_get hvalues hk hop
  obtain ⟨v', hv', hvn⟩ := Image.constants_get hvalues' hn (hkeeps.op.trans hop)
  rw [hkeeps.value, hv] at hv'
  cases hv'
  have hk' : (p.codeWith values).constants.getD k .hole = v := by simp [codeWith, hvk]
  have hn' : (q.codeWith values').constants.getD n .hole = v := by simp [codeWith, hvn]
  rw [hk', hn', Value.rename_of_plain _ (Value.isPlain_ofLiteral hv)]

/-- The linked program simulates the program. -/
theorem Linked.simulates {p q : Program} {table : List (Text × Nat)} (h : Linked p q table)
    (hsmall : p.instructions.length < 2 ^ 62)
    (hleads : ∀ i ∈ p.instructions, usesTarget i.op = true → p.Leads i) {values values' : List Value}
    (hvalues : Machine.constants 0 p.instructions = .ok values)
    (hvalues' : Machine.constants 0 q.instructions = .ok values') :
    Machine.Simulates (address p.instructions) (p.codeWith values) (q.codeWith values') where
  small := by
    show p.instructions.toArray.size < 2 ^ 63
    rw [List.size_toArray]
    omega
  silent host s i hget hi := by
    refine ⟨Machine.walk_of_label hget hi, ?_⟩
    obtain ⟨k, -, hip, hfetch⟩ := Machine.Code.get?_eq_some hget
    have hk : p.instructions[k]? = some i := by simpa [codeWith] using hfetch
    have hlt := (List.getElem?_eq_some_iff.mp hk).1
    have hsame : address p.instructions (s.ip + 1) = address p.instructions s.ip := by
      rw [hip, Machine.ofNat_add_one, address_ofNat hlt (by omega), address_ofNat (Nat.le_of_lt hlt) (by omega),
        size_take_succ hk, if_pos hi]
      rfl
    show { s.rename (relinked p.instructions) with ip := address p.instructions (s.ip + 1) } = _
    rw [hsame]
    rfl
  lockstep host s i hget hi := by
    obtain ⟨k, hint, hip, hfetch⟩ := Machine.Code.get?_eq_some hget
    have hk : p.instructions[k]? = some i := by simpa [codeWith] using hfetch
    have hlt := (List.getElem?_eq_some_iff.mp hk).1
    obtain ⟨i', hi', hkeeps, hmatches⟩ := h.matches hsmall hleads hk hi
    have hlength := Image.resolveAll_length h.resolved
    have hsize : Instruction.size p.instructions ≤ p.instructions.length := List.countP_le_length
    let n := Instruction.size (p.instructions.take k)
    have hindex : (s.rename (relinked p.instructions)).ip = Int64.ofNat n := by
      show address p.instructions s.ip = _
      rw [hip, address_ofNat (Nat.le_of_lt hlt) (by omega)]
    have hholds : (q.codeWith values').Holds n i' :=
      ⟨by show q.instructions.toArray.size < 2 ^ 63; rw [List.size_toArray]; omega, by simpa [codeWith] using hi'⟩
    have hn : (Int64.ofNat n).toInt.toNat = n := by
      rw [Int64.toInt_ofNat_of_lt hholds.lt, Int.toNat_natCast]
    -- Both programs move on before they do anything, and they move on to corresponding places.
    have hnext : { s.rename (relinked p.instructions) with ip := Int64.ofNat n + 1 } =
        State.rename (relinked p.instructions) { s with ip := s.ip + 1 } := by
      have hsame : address p.instructions (s.ip + 1) = Int64.ofNat n + 1 := by
        rw [hip, Machine.ofNat_add_one, Machine.ofNat_add_one, address_ofNat hlt (by omega),
          size_take_succ hk, hi]
        rfl
      rw [← hsame]
      rfl
    have hget' : (q.codeWith values').get? (s.rename (relinked p.instructions)).ip = some i' := by
      rw [hindex]
      exact hholds.get?
    have hconst : (direct p.instructions k i).op = .push →
        (q.codeWith values').constants.getD n .hole =
          ((p.codeWith values).constants.getD k .hole).rename (relinked p.instructions) := by
      intro hop
      rw [(direct_keeps p.instructions k i).op] at hop
      exact constant_rename hvalues hvalues' hk hi' hkeeps hop _
    rw [Machine.step_of_some hget', Machine.walk_of_some hget hi, hindex, hn, hint, Int.toNat_natCast, hnext]
    exact Machine.execute_relinked host hmatches hconst _
  leaves host s hget := ⟨Machine.walk_of_none hget, Machine.step_of_none (h.get?_none hsmall hget)⟩

/-- The machine runs as the program with its labels does from a state. -/
structure Implements (p : Program) (values : List Value) (start : State) (m : Machine) : Prop where
  /-- The machine starts in the same state, with the addresses of linked code. -/
  starts : start.rename (relinked p.instructions) = m.startState
  /-- Labels are silent, and every other step is one of the machine, with the same trouble or none. -/
  steps : Machine.Simulates (address p.instructions) (p.codeWith values) m.code
  /-- The machine gets to every state that the program gets to, if builtins from outside answer the same. -/
  reaches : ∀ host answers s,
    Relation.ReflTransGen (Machine.Continues (Machine.walk (p.codeWith values) host) answers) start s →
    Relation.ReflTransGen (Machine.Continues (Machine.step m.code host)
      (Machine.Simulates.Renamed (address p.instructions) answers)) m.startState
        (s.rename (relinked p.instructions))
  /-- The machine gets to no other state. -/
  reached : ∀ host answers t,
    Relation.ReflTransGen (Machine.Continues (Machine.step m.code host)
      (Machine.Simulates.Renamed (address p.instructions) answers)) m.startState t →
    ∃ s, t = s.rename (relinked p.instructions) ∧
      Relation.ReflTransGen (Machine.Continues (Machine.walk (p.codeWith values) host) answers) start s
  /-- If the program ends, a run of the machine with enough fuel shows how. -/
  ends : ∀ host ending s, Machine.Ends (Machine.walk (p.codeWith values) host) start ending s →
    ∃ fuel ending', Machine.Alike ending ending' ∧
      m.run { host, fuel } = some (m.ended ending' (s.rename (relinked p.instructions)))
  /-- A run of the machine shows nothing else. -/
  ended : ∀ host fuel o, m.run { host, fuel } = some o →
    ∃ ending ending' s, Machine.Ends (Machine.walk (p.codeWith values) host) start ending s ∧
      Machine.Alike ending ending' ∧ o = m.ended ending' (s.rename (relinked p.instructions))

theorem Implements.of_simulates {p : Program} {values : List Value} {start : State} {m : Machine}
    (h : Machine.Simulates (address p.instructions) (p.codeWith values) m.code) (hm : m.isRunning = false)
    (hstart : start.rename (relinked p.instructions) = m.startState) : Implements p values start m where
  starts := hstart
  steps := h
  reaches host answers s hrun := hstart ▸ h.reaches hrun
  reached host answers t hrun := by
    rw [← hstart] at hrun
    obtain ⟨u, hu, ht⟩ := h.reached_by hrun
    exact ⟨u, ht, hu⟩
  ends host ending s hrun := by
    obtain ⟨ending', halike, hends⟩ := h.ends hrun
    rw [hstart] at hends
    obtain ⟨fuel, hfuel⟩ := (Machine.run_iff_ends hm).mpr ⟨ending', _, hends, rfl⟩
    exact ⟨fuel, ending', halike, hfuel⟩
  ended host fuel o hrun := by
    obtain ⟨ending', t, hends, rfl⟩ := (Machine.run_iff_ends hm).mp ⟨fuel, hrun⟩
    obtain ⟨ending, u, halike, hwalks, rfl⟩ := h.ended_by hends hstart.symm
    exact ⟨ending, ending', u, hwalks, halike, rfl⟩

/-- Where a program with its labels starts: with some global variables, and with the environments of the functions
that they hold. -/
def startOf (vars : List (Text × Value)) (heap : Store) (made : Nat) : State :=
  { store := #[{ vars := vars.foldl (fun vars x => Store.assign x.1 x.2 vars) [] }] ++ heap, made }

/-- The machine of a program starts with renamed variables if its globals are renamed. -/
theorem startState_withHeap {p q : Program} {values : List Value} {vars : List (Text × Value)}
    (hsmall : p.instructions.length < 2 ^ 62) (heap : Store) (made : Nat) :
    (startOf vars heap made).rename (relinked p.instructions) =
      Machine.startState (Machine.withHeap
        { program := q, code := q.codeWith values
          store := #[⟨(Value.renameVars (relinked p.instructions) vars).foldl
            (fun vars x => Store.assign x.1 x.2 vars) [], none⟩] }
        (heap.rename (relinked p.instructions)) made) := by
  let ρ := relinked p.instructions
  have hzero : address p.instructions 0 = 0 := address_ofNat (Nat.zero_le _) (by omega)
  have hvars : Value.renameVars ρ (vars.foldl (fun vars x => Store.assign x.1 x.2 vars) []) =
      (Value.renameVars ρ vars).foldl (fun vars x => Store.assign x.1 x.2 vars) [] :=
    Store.assignAll_rename ρ vars []
  have hstore : Store.rename ρ (startOf vars heap made).store =
      #[{ vars := (Value.renameVars ρ vars).foldl (fun vars x => Store.assign x.1 x.2 vars) [] }] ++
        heap.rename ρ := by
    rw [← hvars]
    simp [startOf, Store.rename, Env.rename, ρ]
  rw [State.rename, hstore]
  show State.mk (address p.instructions 0) _ _ _ _ _ _ = _
  rw [hzero]
  rfl

/-- Linking preserves meaning. If all jumps and functions of a program lead to labels, or so many instructions
further on as the program has at most, and if the program can be linked, then it has a machine unless a
literal has no value, and the machine runs as the program does. They start with the same global
variables, up to addresses. Among these may be functions that were made elsewhere, with their
environments. A program in memory has far fewer than `2 ^ 62` instructions. -/
theorem link_preserves_meaning {p q : Program} (hp : p.linked = false)
    (hsmall : p.instructions.length < 2 ^ 62)
    (hleads : ∀ i ∈ p.instructions, usesTarget i.op = true → p.Leads i) (hq : p.link = .ok q)
    (vars : List (Text × Value)) (heap : Store) (made : Nat) :
    ((∃ m, Machine.ofProgram (Value.renameVars (relinked p.instructions) vars) q = .ok m) ↔
        ∃ values, Machine.constants 0 p.instructions = .ok values) ∧
      ∀ m values, Machine.ofProgram (Value.renameVars (relinked p.instructions) vars) q = .ok m →
        Machine.constants 0 p.instructions = .ok values →
        Implements p values (startOf vars heap made) (m.withHeap (heap.rename (relinked p.instructions)) made) := by
  obtain ⟨table, h⟩ := linked_of_link hp hq
  have hlink : q.link = .ok q := by rw [link, h.linked, if_pos rfl]
  let given := Value.renameVars (relinked p.instructions) vars
  have hmachine : ∀ m, Machine.ofProgram given q = .ok m →
      ∃ values', Machine.constants 0 q.instructions = .ok values' ∧ m =
        { program := q, code := q.codeWith values'
          store := #[{ vars := given.foldl (fun vars x => Store.assign x.1 x.2 vars) [] }] } := by
    intro m hm
    obtain ⟨q', values', hq', hvalues', rfl⟩ := Machine.ofProgram_eq_ok hm
    cases hlink.symm.trans hq'
    exact ⟨values', hvalues', rfl⟩
  refine ⟨?_, fun m values hm hvalues => ?_⟩
  · rw [← h.constants_iff]
    constructor
    · rintro ⟨m, hm⟩
      obtain ⟨values', hvalues', -⟩ := hmachine m hm
      exact ⟨values', hvalues'⟩
    · rintro ⟨values', hvalues'⟩
      rw [Machine.ofProgram, hlink]
      dsimp only
      rw [hvalues']
      exact ⟨_, rfl⟩
  · obtain ⟨values', hvalues', rfl⟩ := hmachine m hm
    exact .of_simulates (h.simulates hsmall hleads hvalues hvalues') rfl (startState_withHeap hsmall heap made)

/-- A jump over an instruction and the labels around it, and a function that starts at one of them. Another
function that starts there comes in as a global variable. -/
theorem link_preserves_meaning_labels :
    let p : Program :=
      { instructions := [
          { op := .jump, mode := .relative, target := 1 },
          { op := .label, name := "f" },
          { op := .return },
          { op := .label, name := "end" },
          { op := .makeFunction, mode := .label, label := "f" },
          { op := .halt }] }
    let q : Program :=
      { p with
        instructions := [
          { op := .jump, mode := .absolute, target := 2 },
          { op := .return },
          { op := .makeFunction, mode := .absolute, label := "f", target := 1 },
          { op := .halt }]
        linked := true }
    let g (entry : Int64) : List (Text × Value) := [("g", .closure ⟨0, [], entry, 1⟩)]
    p.link = .ok q ∧ Value.renameVars (relinked p.instructions) (g 4) = g 2 ∧
      ∃ m, Machine.ofProgram (g 2) q = .ok m ∧
        Implements p (List.replicate 6 .hole) (startOf (g 4) #[{}] 1) (m.withHeap #[{}] 1) := by
  intro p q g
  have hlink : p.link = .ok q := by rfl
  have hmeaning := link_preserves_meaning (p := p) (q := q) rfl (by decide) (by simp [p, usesTarget, Leads])
    hlink (g 4) #[{}] 1
  have hg : Value.renameVars (relinked p.instructions) (g 4) = g 2 := by rfl
  obtain ⟨m, hm⟩ := hmeaning.1.mpr ⟨List.replicate 6 .hole, rfl⟩
  have hheap : Store.rename (relinked p.instructions) #[{}] = #[{}] := by
    simp [Store.rename, Env.rename, Value.renameVars]
  have hmachine := hmeaning.2 m (List.replicate 6 .hole) hm rfl
  rw [hheap] at hmachine
  exact ⟨hlink, hg, m, hg ▸ hm, hmachine⟩

end Program
end Bareword
