import Bareword.Proofs.Scope.Fingerprints
import Bareword.Proofs.Scope.Persistence

/-! # Equal scopes

Two scopes are the same when they bind the same names all the way up, however they were built, and
comparing them or their fingerprints finds just that.

* `fingerprint`: what the names along a chain are fingerprinted to.
* `Keyed.runAll`: whatever the calls, every record has the fingerprint of its key.
* `ParentsFirst.hash?_eq`: the fingerprint of a scope is that of the names along its chain.
* `ParentsFirst.equal?_eq`: comparing two scopes compares the names along their chains.
* `Arena.runAll_structural`: equality and fingerprints of scopes that any calls have made.
-/

namespace Bareword.Scope
set_option autoImplicit false
open Digest (Hasher)

/-- The fingerprint of a scope with these names, its own first. -/
def fingerprint (hasher : Hasher) : List (List Text) → Option UInt64
  | [] => none
  | names :: outer => some (hasher (signature names (fingerprint hasher outer)))

namespace Arena

variable {hasher : Hasher} {a b : Arena}

/-! ## Keys -/

theorem Keyed.new (hasher : Hasher) : (Arena.new hasher).Keyed hasher := by
  intro id r h
  rw [get?_new h]
  rfl

theorem Keyed.alloc (h : a.Keyed hasher) (ha : a.ParentsFirst) {r : Record}
    (hparent : ∀ p, r.parent = some p → p < a.size) (hhash : r.hash = hasher (a.key r)) : (a.alloc r).1.Keyed hasher := by
  intro id s hs
  rcases get?_alloc_cases hs with hold | ⟨rfl, rfl⟩
  · rw [h id s hold, key_of_extends (.alloc a r) fun p hp => ha.lt_size hold hp]
  · rw [hhash, key_of_extends (.alloc a s) hparent]

/-- A call makes no record without its fingerprint. -/
theorem Keyed.run (h : a.Keyed hasher) (ha : a.ParentsFirst) {call : Call} {id : Nat}
    (hrun : call.run hasher a = some (b, id)) : b.Keyed hasher := by
  obtain ⟨r, hr⟩ := get?_eq_some_iff.mpr (scope_lt_of_run hrun)
  cases call with
  | add scope names =>
    simp only [Call.scope] at hr
    rw [Call.run, Arena.add, hr] at hrun
    dsimp only at hrun
    split at hrun
    · cases hrun
      exact h
    · cases hrun
      exact h.alloc ha (fun p hp => ha.lt_size hr hp) rfl
  | push scope =>
    simp only [Call.scope] at hr
    rw [Call.run, Arena.push, hr] at hrun
    cases hrun
    refine h.alloc ha (fun p hp => ?_) ?_
    · cases hp
      exact get?_eq_some_iff.mp ⟨r, hr⟩
    · rw [key, Option.map_some, hash?, hr]
      rfl
  | pop scope =>
    obtain ⟨parent, -, hanswer⟩ := Option.map_eq_some_iff.mp hrun
    cases hanswer
    exact h

theorem Keyed.runAll (h : a.Keyed hasher) (ha : a.Ordered) {calls : List Call}
    (hruns : a.runAll hasher calls = some b) : b.Keyed hasher := by
  induction calls generalizing a with
  | nil =>
    cases hruns
    exact h
  | cons call calls ih =>
    obtain ⟨⟨c, id⟩, hcall, hrest⟩ := Option.bind_eq_some_iff.mp hruns
    obtain ⟨c', id', hrun, hc, -⟩ := ha.run (scope_lt_of_run hcall)
    cases hcall.symm.trans hrun
    exact ih (h.run ha.parent hcall) hc hrest

/-! ## Fingerprints of chains -/

theorem ParentsFirst.outward_eq_nil_iff (h : a.ParentsFirst) {x : Option Nat} (hx : ∀ i ∈ x, i < a.size) :
    a.outward x = [] ↔ x = none := by
  cases x with
  | none => exact iff_of_true rfl rfl
  | some i =>
    obtain ⟨r, hr⟩ := get?_eq_some_iff.mpr (hx i rfl)
    refine iff_of_false (fun hnil => ?_) (Option.some_ne_none i)
    cases (h.bindings_eq_cons hr).symm.trans hnil

/-- A scope has the fingerprint of the names along its chain, however it was built. -/
theorem ParentsFirst.hash?_eq (h : a.ParentsFirst) (hkeyed : a.Keyed hasher) {id : Nat} (hid : id < a.size) :
    a.hash? id = fingerprint hasher (a.bindings id) := by
  -- Parents are older than their scopes, so the induction is on the number of the scope.
  induction id using Nat.strongRecOn with
  | ind id ih =>
    obtain ⟨r, hr⟩ := get?_eq_some_iff.mpr hid
    rw [hash?, hr, Option.map_some, hkeyed id r hr, h.bindings_eq_cons hr, fingerprint, key]
    cases hp : r.parent with
    | none => rfl
    | some p =>
      have houter := ih p (h id r p hr hp) (h.lt_size hr hp)
      rw [Option.map_some, ← h.hash?_parent hr hp, houter]
      rfl

/-! ## Comparing -/

/-- Comparing two scopes compares the names along their chains: the fingerprints that are compared on
the way differ only where names do. -/
theorem ParentsFirst.equal?_eq (h : a.ParentsFirst) (hkeyed : a.Keyed hasher) {x y : Option Nat}
    (hx : ∀ i ∈ x, i < a.size) (hy : ∀ j ∈ y, j < a.size) : a.equal? x y = some (decide (a.outward x = a.outward y)) := by
  fun_induction a.equal? x y with
  | case1 x => rw [decide_eq_true rfl]
  | case2 i j rx ry hj hi hdiffer hne =>
    -- Chains of the same names have the same fingerprint, so either difference tells the chains apart.
    refine congrArg some (decide_eq_false fun hsame => ?_).symm
    have hbindings : a.bindings i = a.bindings j := hsame
    have hhash : a.hash? i = a.hash? j := by
      rw [h.hash?_eq hkeyed (hx i rfl), h.hash?_eq hkeyed (hy j rfl), hbindings]
    rw [hash?, hash?, hi, hj] at hhash
    rw [h.bindings_eq_cons hi, h.bindings_eq_cons hj] at hbindings
    rcases hdiffer with hdiffer | hdiffer
    · exact hdiffer (Option.some.inj hhash)
    · exact hdiffer (List.cons.inj hbindings).1
  | case3 i j rx ry hj hi hsame hroot hne =>
    have hnames : rx.names = ry.names := by
      by_contra hdiffer
      exact hsame (.inr hdiffer)
    have houter : a.outward (some i) = a.outward (some j) ↔ ry.parent = none := by
      rw [← h.outward_eq_nil_iff fun q hq => h.lt_size hj hq,
        show a.outward (some i) = rx.names :: a.outward rx.parent from h.bindings_eq_cons hi,
        show a.outward (some j) = ry.names :: a.outward ry.parent from h.bindings_eq_cons hj, hnames, hroot,
        List.cons_inj_right]
      exact eq_comm
    rw [Option.some.injEq, Bool.eq_iff_iff, decide_eq_true_iff, houter, Option.isNone_iff_eq_none]
  | case4 i j rx ry hj hi hsame p hp hlt hne ih =>
    have hnames : rx.names = ry.names := by
      by_contra hdiffer
      exact hsame (.inr hdiffer)
    have houter : a.outward (some i) = a.outward (some j) ↔ a.outward (some p) = a.outward ry.parent := by
      rw [show a.outward (some i) = rx.names :: a.outward rx.parent from h.bindings_eq_cons hi,
        show a.outward (some j) = ry.names :: a.outward ry.parent from h.bindings_eq_cons hj, hnames, hp,
        List.cons_inj_right]
    rw [ih (fun q hq => h.lt_size hi (hp.trans hq)) fun q hq => h.lt_size hj hq]
    exact congrArg some (decide_eq_decide.mpr houter.symm)
  | case5 i j rx ry hj hi hsame p hp hlt => exact absurd (h i rx p hi hp) hlt
  | case6 i j hmissing hne =>
    obtain ⟨rx, hi⟩ := get?_eq_some_iff.mpr (hx i rfl)
    obtain ⟨ry, hj⟩ := get?_eq_some_iff.mpr (hy j rfl)
    exact (hmissing rx ry hi hj).elim
  | case7 x y hne hnone =>
    refine congrArg some (decide_eq_false fun hsame => ?_).symm
    cases x with
    | none => exact hne ((h.outward_eq_nil_iff hy).mp hsame.symm).symm
    | some i =>
      cases y with
      | none => exact hne ((h.outward_eq_nil_iff hx).mp hsame)
      | some j => exact hnone i j rfl rfl

/-! ## Scopes that calls have made -/

theorem named_iff : a.Named ↔ ∀ r ∈ a.records, ∀ name ∈ r.names, Token.isName name = true := by
  constructor
  · intro h r hr
    obtain ⟨i, hi⟩ := Array.mem_iff_getElem?.mp hr
    exact h i r hi
  · intro h i r hi
    exact h r (Array.mem_of_getElem? hi)

instance (a : Arena) : Decidable a.Named := decidable_of_iff _ named_iff.symm

/-- What equality and fingerprints of the scopes of an arena say. -/
structure Structural (hasher : Hasher) (a : Arena) : Prop where
  /-- Two scopes are equal when the names from them up to their roots are the same. -/
  equal_iff : ∀ x < a.size, ∀ y < a.size, ∃ answer, a.equal? (some x) (some y) = some answer ∧
    (answer = true ↔ a.bindings x = a.bindings y)
  /-- The fingerprint of a scope says nothing about how the scope was built. -/
  hash_eq : ∀ x < a.size, a.hash? x = fingerprint hasher (a.bindings x)
  hash_eq_of_equal : ∀ x < a.size, ∀ y < a.size, a.equal? (some x) (some y) = some true → a.hash? x = a.hash? y
  /-- What is fingerprinted for a record is its key. -/
  hash_key : ∀ x r, a.get? x = some r → r.hash = hasher (a.key r)
  key_inj : ∀ x y r s, a.get? x = some r → a.get? y = some s → (∀ name ∈ r.names, Token.isName name = true) →
    (∀ name ∈ s.names, Token.isName name = true) → a.key r = a.key s →
    r.names = s.names ∧ r.parent.bind a.hash? = s.parent.bind a.hash?
  equal_of_hash_eq : a.Named → a.CollisionFree hasher → ∀ x < a.size, ∀ y < a.size, a.hash? x = a.hash? y →
    a.equal? (some x) (some y) = some true

/-- Calls from the empty root on, in any order and about any scopes, make scopes whose equality and
fingerprints are those of their names. -/
theorem runAll_structural {calls : List Call} (h : (Arena.new hasher).runAll hasher calls = some a) :
    a.Structural hasher := by
  obtain ⟨ha, -⟩ := (Ordered.new hasher).runAll h
  have hfirst : a.ParentsFirst := ha.parent
  have hkeyed := (Keyed.new hasher).runAll (Ordered.new hasher) h
  have hin {x : Nat} (hx : x < a.size) : ∀ i ∈ some x, i < a.size := by
    rintro i ⟨⟩
    exact hx
  have hequal (x : Nat) (hx : x < a.size) (y : Nat) (hy : y < a.size) :
      a.equal? (some x) (some y) = some (decide (a.bindings x = a.bindings y)) :=
    hfirst.equal?_eq hkeyed (hin hx) (hin hy)
  have hhash (x : Nat) (hx : x < a.size) : a.hash? x = fingerprint hasher (a.bindings x) := hfirst.hash?_eq hkeyed hx
  constructor
  · intro x hx y hy
    exact ⟨_, hequal x hx y hy, decide_eq_true_iff⟩
  · exact hhash
  · intro x hx y hy htrue
    rw [hequal x hx y hy, Option.some.injEq, decide_eq_true_iff] at htrue
    rw [hhash x hx, hhash y hy, htrue]
  · exact hkeyed
  · intro x y r s hr hs hnames hnames' hkey
    exact hfirst.key_inj hr hs hnames hnames' hkey
  · intro hnamed hfree x hx y hy hsame
    rw [hequal x hx y hy, decide_eq_true (hfirst.bindings_eq_of_hash hkeyed hnamed hfree hx hy hsame)]

/-- The names `a` and `b` are bound in both orders, and once more one level down. -/
theorem runAll_structural_orders :
    ∃ a, (Arena.new fun t => t.foldl (257 * · + ·.toUInt64) 1).runAll (fun t => t.foldl (257 * · + ·.toUInt64) 1)
        [.add 0 [[97]], .add 1 [[98]], .add 0 [[98]], .add 3 [[97]], .push 0, .add 5 [[97], [98]]] = some a ∧
      a.Named ∧ a.CollisionFree (fun t => t.foldl (257 * · + ·.toUInt64) 1) ∧
      a.equal? (some 2) (some 4) = some true ∧ a.equal? (some 2) (some 6) ≠ some true := by
  obtain ⟨a, ha, hfacts⟩ := (Option.any_eq_true _ _).mp (show (((Arena.new fun t => t.foldl (257 * · + ·.toUInt64) 1).runAll
      (fun t => t.foldl (257 * · + ·.toUInt64) 1)
      [.add 0 [[97]], .add 1 [[98]], .add 0 [[98]], .add 3 [[97]], .push 0, .add 5 [[97], [98]]]).any fun a =>
    decide (a.Named ∧ a.CollisionFree (fun t => t.foldl (257 * · + ·.toUInt64) 1) ∧ 6 < a.size ∧
      a.hash? 2 = a.hash? 4 ∧ a.hash? 2 ≠ a.hash? 6)) = true by decide +kernel)
  obtain ⟨hnamed, hfree, hsize, hsame, hdiffer⟩ := of_decide_eq_true hfacts
  have hstructural := runAll_structural ha
  refine ⟨a, ha, hnamed, hfree, ?_, fun hequal => hdiffer ?_⟩
  · exact hstructural.equal_of_hash_eq hnamed hfree 2 (by omega) 4 (by omega) hsame
  · exact hstructural.hash_eq_of_equal 2 (by omega) 6 hsize hequal

end Arena
end Bareword.Scope
