import Bareword.Proofs.Scope.Sorted

/-! # The arena as a persistent store

Scopes are made by calls that name earlier scopes in any order, as the attempts of a parse do. Whatever
the calls, an earlier scope answers as it did when it was made.

* `Arena.Encloses`: a scope or one of its ancestors.
* `Arena.Ordered`: parents come first and names are in order; every call keeps this.
* `Arena.Agrees`: a later arena answers about the scopes of an earlier one as that one did.
* `Arena.Call`: adding names, entering a scope, leaving a scope.
* `Arena.Store`: what holds of the scopes of an arena.
-/

namespace Bareword.Scope.Arena
set_option autoImplicit false
open Digest (Hasher)

variable {hasher : Hasher} {a b c : Arena}

/-- The parent of a scope, unless it is a root. -/
def parent? (a : Arena) (id : Nat) : Option Nat := (a.get? id).bind (·.parent)

/-- The scope `outer` is `id` or one of its ancestors. -/
inductive Encloses (a : Arena) (outer : Nat) : Nat → Prop where
  | itself : Encloses a outer outer
  | further {id p : Nat} (hparent : a.parent? id = some p) (h : Encloses a outer p) : Encloses a outer id

theorem names?_eq_some_iff {id : Nat} {names : List Text} :
    a.names? id = some names ↔ ∃ r, a.get? id = some r ∧ r.names = names := Option.map_eq_some_iff

theorem parent?_eq_some_iff {id p : Nat} :
    a.parent? id = some p ↔ ∃ r, a.get? id = some r ∧ r.parent = some p := Option.bind_eq_some_iff

theorem parent?_of_get? {id : Nat} {r : Record} (h : a.get? id = some r) : a.parent? id = r.parent := by
  rw [parent?, h]
  rfl

/-! ## Order -/

/-- Parents come before their children, and the names of a scope are in order. -/
structure Ordered (a : Arena) : Prop where
  parent : ∀ id r p, a.get? id = some r → r.parent = some p → p < id
  names : ∀ id r, a.get? id = some r → Sorted r.names

theorem Ordered.new (hasher : Hasher) : (Arena.new hasher).Ordered := by
  constructor
  · intro id r p h hp
    rw [get?_new h] at hp
    cases hp
  · intro id r h
    rw [get?_new h]
    exact .nil

theorem Ordered.alloc (h : a.Ordered) {r : Record} (hparent : ∀ p, r.parent = some p → p < a.size)
    (hnames : Sorted r.names) : (a.alloc r).1.Ordered := by
  constructor
  · intro id s p hs hp
    rcases get?_alloc_cases hs with hold | ⟨rfl, rfl⟩
    · exact h.parent id s p hold hp
    · exact hparent p hp
  · intro id s hs
    rcases get?_alloc_cases hs with hold | ⟨rfl, rfl⟩
    · exact h.names id s hold
    · exact hnames

theorem Ordered.chain_eq (h : a.Ordered) {id : Nat} {r : Record} (hr : a.get? id = some r) :
    a.chain id = r :: (r.parent.map a.chain).getD [] :=
  ParentsFirst.chain_eq h.parent hr

theorem Ordered.parent_lt_size (h : a.Ordered) {id p : Nat} {r : Record} (hr : a.get? id = some r)
    (hp : r.parent = some p) : p < a.size :=
  ParentsFirst.lt_size h.parent hr hp

/-- The records of a chain are those of the scope and its ancestors. -/
theorem Ordered.mem_chain_iff (h : a.Ordered) {id : Nat} {r : Record} :
    r ∈ a.chain id ↔ ∃ outer, a.Encloses outer id ∧ a.get? outer = some r := by
  constructor
  · intro hmem
    induction id using Nat.strongRecOn with
    | ind id ih =>
      by_cases hid : id < a.size
      · obtain ⟨s, hs⟩ := get?_eq_some_iff.mpr hid
        rw [h.chain_eq hs, List.mem_cons] at hmem
        rcases hmem with rfl | hmem
        · exact ⟨id, .itself, hs⟩
        · cases hp : s.parent with
          | none => simp [hp] at hmem
          | some p =>
            rw [hp] at hmem
            obtain ⟨outer, henc, hr⟩ := ih p (h.parent id s p hs hp) hmem
            exact ⟨outer, .further (parent?_eq_some_iff.mpr ⟨s, hs, hp⟩) henc, hr⟩
      · rw [chain_of_not_lt hid] at hmem
        cases hmem
  · rintro ⟨outer, henc, hr⟩
    induction henc with
    | itself =>
      rw [h.chain_eq hr]
      exact List.mem_cons_self
    | further hparent _ ih =>
      obtain ⟨s, hs, hp⟩ := parent?_eq_some_iff.mp hparent
      rw [h.chain_eq hs, hp]
      exact List.mem_cons_of_mem s ih

/-- A name is bound in a scope when it is among its names or those of an ancestor. -/
theorem Ordered.has?_iff (h : a.Ordered) {id : Nat} (hid : id < a.size) (name : Text) :
    ∃ answer, a.has? id name = some answer ∧
      (answer = true ↔ ∃ outer names, a.Encloses outer id ∧ a.names? outer = some names ∧ name ∈ names) := by
  obtain ⟨r, hr⟩ := get?_eq_some_iff.mpr hid
  refine ⟨(a.chain id).any (holds ·.names name), by rw [has?, hr]; rfl, ?_⟩
  rw [List.any_eq_true]
  constructor
  · rintro ⟨s, hs, hholds⟩
    obtain ⟨outer, henc, hget⟩ := h.mem_chain_iff.mp hs
    exact ⟨outer, s.names, henc, names?_eq_some_iff.mpr ⟨s, hget, rfl⟩, mem_of_holds hholds⟩
  · rintro ⟨outer, names, henc, hnames, hmem⟩
    obtain ⟨s, hget, rfl⟩ := names?_eq_some_iff.mp hnames
    exact ⟨s, h.mem_chain_iff.mpr ⟨outer, henc, hget⟩, (holds_iff (h.names outer s hget) name).mpr hmem⟩

/-! ## Agreement -/

/-- The arena `b` answers every question about scopes of `a` as `a` does. -/
structure Agrees (a b : Arena) : Prop where
  has? : ∀ id < a.size, ∀ name, b.has? id name = a.has? id name
  names? : ∀ id < a.size, b.names? id = a.names? id
  depth? : ∀ id < a.size, b.depth? id = a.depth? id
  hash? : ∀ id < a.size, b.hash? id = a.hash? id
  equal? : ∀ x y : Option Nat, (∀ i ∈ x, i < a.size) → (∀ j ∈ y, j < a.size) → b.equal? x y = a.equal? x y

theorem get?_of_extends (h : a.Extends b) {id : Nat} (hid : id < a.size) : b.get? id = a.get? id := by
  obtain ⟨r, hr⟩ := get?_eq_some_iff.mpr hid
  rw [hr, h id r hr]

theorem equal?_some {i j : Nat} (hne : ¬some i = some j) {x y : Record} (hx : a.get? i = some x)
    (hy : a.get? j = some y) :
    a.equal? (some i) (some j) =
      if x.hash ≠ y.hash ∨ x.names ≠ y.names then some false
      else
        match x.parent with
        | none => some y.parent.isNone
        | some p => if p < i then a.equal? (some p) y.parent else some false := by
  rw [equal?.eq_def, if_neg hne]
  dsimp only
  rw [hx, hy]
  dsimp only
  cases x.parent <;> rfl

/-- Comparing two scopes looks at the records of their chains only. -/
theorem Ordered.equal?_of_extends (ha : a.Ordered) (h : a.Extends b) {x y : Option Nat}
    (hx : ∀ i ∈ x, i < a.size) (hy : ∀ j ∈ y, j < a.size) : b.equal? x y = a.equal? x y := by
  fun_induction a.equal? x y with
  | case1 x => rw [equal?.eq_def, if_pos rfl]
  | case2 i j rx ry hj hi hdiffer hne => rw [equal?_some hne (h i rx hi) (h j ry hj), if_pos hdiffer]
  | case3 i j rx ry hj hi hsame hroot hne =>
    rw [equal?_some hne (h i rx hi) (h j ry hj), if_neg hsame, hroot]
  | case4 i j rx ry hj hi hsame p hp hlt hne ih =>
    have hparents := ih (fun q hq => ha.parent_lt_size hi (hp.trans hq)) fun q hq => ha.parent_lt_size hj hq
    rw [equal?_some hne (h i rx hi) (h j ry hj), if_neg hsame, hp]
    dsimp only
    rw [if_pos hlt, hparents]
  | case5 i j rx ry hj hi hsame p hp hlt => exact absurd (ha.parent i rx p hi hp) hlt
  | case6 i j hmissing hne =>
    obtain ⟨rx, hi⟩ := get?_eq_some_iff.mpr (hx i rfl)
    obtain ⟨ry, hj⟩ := get?_eq_some_iff.mpr (hy j rfl)
    exact (hmissing rx ry hi hj).elim
  | case7 x y hne hnone =>
    rw [equal?.eq_def, if_neg hne]
    cases x with
    | none => rfl
    | some i =>
      cases y with
      | none => rfl
      | some j => exact (hnone i j rfl rfl).elim

/-- Records never change, so the scopes of an arena answer the same in every later one. -/
theorem Ordered.agrees_of_extends (ha : a.Ordered) (h : a.Extends b) : Agrees a b where
  has? id hid name := by rw [Arena.has?, Arena.has?, get?_of_extends h hid, chain_of_extends h hid]
  names? id hid := by rw [Arena.names?, Arena.names?, get?_of_extends h hid]
  depth? id hid := by rw [Arena.depth?, Arena.depth?, get?_of_extends h hid, chain_of_extends h hid]
  hash? id hid := hash?_of_extends h hid
  equal? _ _ hx hy := ha.equal?_of_extends h hx hy

/-! ## Adding, entering and leaving -/

/-- Adding names gives the scope that binds the union, in order and with the same parent. -/
theorem Ordered.add (h : a.Ordered) {id : Nat} {names : List Text} (hnames : a.names? id = some names)
    (more : List Text) :
    ∃ b id' merged, a.add hasher id more = some (b, id') ∧ b.Ordered ∧ a.Extends b ∧ id' < b.size ∧
      b.names? id' = some merged ∧ (∀ n, n ∈ merged ↔ n ∈ names ∨ n ∈ more) ∧ b.parent? id' = a.parent? id ∧
      (id' = id ↔ ∀ n ∈ more, n ∈ names) := by
  obtain ⟨r, hr, rfl⟩ := names?_eq_some_iff.mp hnames
  have hid := get?_eq_some_iff.mp ⟨r, hr⟩
  rw [Arena.add, hr]
  dsimp only
  split
  · rename_i hsame
    have hself := foldl_bind_eq_self hsame
    refine ⟨a, id, r.names, rfl, h, .refl a, hid, hnames, ?_, rfl, iff_of_true rfl ?_⟩
    · intro n
      rw [← mem_foldl_bind, hself]
    · intro n hn
      rw [← hself, mem_foldl_bind]
      exact .inr hn
  · rename_i hgrown
    have hparent (p : Nat) (hp : r.parent = some p) : p < a.size := h.parent_lt_size hr hp
    refine ⟨_, _, _, rfl, h.alloc hparent ((h.names id r hr).foldl_bind more), .alloc a _,
      get?_eq_some_iff.mp ⟨_, get?_alloc a _⟩, names?_eq_some_iff.mpr ⟨_, get?_alloc a _, rfl⟩,
      mem_foldl_bind more r.names, ?_, iff_of_false (Nat.ne_of_gt hid) fun hall => ?_⟩
    · exact (parent?_of_get? (get?_alloc a _)).trans (parent?_of_get? hr).symm
    · exact hgrown (congrArg List.length ((h.names id r hr).foldl_bind_of_mem hall))

/-- Entering a scope gives a scope inside it that binds nothing itself. -/
theorem Ordered.push (h : a.Ordered) {id : Nat} (hid : id < a.size) :
    ∃ b id', a.push hasher id = some (b, id') ∧ b.Ordered ∧ a.Extends b ∧ id' < b.size ∧
      b.names? id' = some [] ∧ b.parent? id' = some id := by
  obtain ⟨r, hr⟩ := get?_eq_some_iff.mpr hid
  rw [Arena.push, hr]
  refine ⟨_, _, rfl, h.alloc (fun p hp => ?_) .nil, .alloc a _, get?_eq_some_iff.mp ⟨_, get?_alloc a _⟩,
    names?_eq_some_iff.mpr ⟨_, get?_alloc a _, rfl⟩, parent?_of_get? (get?_alloc a _)⟩
  cases hp
  exact hid

theorem pop_eq {id : Nat} (hid : id < a.size) : a.pop id = some ((a.parent? id).getD id) := by
  obtain ⟨r, hr⟩ := get?_eq_some_iff.mpr hid
  rw [pop, parent?_of_get? hr, hr]
  rfl

theorem Ordered.pop (h : a.Ordered) {id : Nat} (hid : id < a.size) :
    ∃ id', a.pop id = some id' ∧ id' < a.size := by
  refine ⟨_, pop_eq hid, ?_⟩
  cases hp : a.parent? id with
  | none => exact hid
  | some p =>
    obtain ⟨r, hr, hparent⟩ := parent?_eq_some_iff.mp hp
    exact h.parent_lt_size hr hparent

/-- Leaving a scope that was entered gives the scope around it, whatever was bound inside. -/
theorem Ordered.pop_add_push (h : a.Ordered) {id : Nat} (hid : id < a.size) (names : List Text) :
    ∃ b inner c filled, a.push hasher id = some (b, inner) ∧ b.add hasher inner names = some (c, filled) ∧
      c.pop filled = some id := by
  obtain ⟨b, inner, hpush, hb, -, -, hnames, hparent⟩ := h.push hid
  obtain ⟨c, filled, -, hadd, -, -, hfilled, -, -, hsame, -⟩ := hb.add hnames names
  refine ⟨b, inner, c, filled, hpush, hadd, ?_⟩
  rw [pop_eq hfilled, hsame, hparent]
  rfl

/-! ## Calls -/

/-- A call of an operation that makes or finds a scope. -/
inductive Call where
  | add (id : Nat) (names : List Text)
  | push (id : Nat)
  | pop (id : Nat)

def Call.scope : Call → Nat
  | .add id _ => id
  | .push id => id
  | .pop id => id

/-- The arena after a call, and the scope that the call answers with. -/
def Call.run (hasher : Hasher) (a : Arena) : Call → Option (Arena × Nat)
  | .add id names => a.add hasher id names
  | .push id => a.push hasher id
  | .pop id => (a.pop id).map (a, ·)

/-- The arena after one call after another. -/
def runAll (hasher : Hasher) (a : Arena) : List Call → Option Arena
  | [] => some a
  | call :: calls => (call.run hasher a).bind fun answer => runAll hasher answer.1 calls

/-- A call about a scope that exists answers with one, in a later arena. -/
theorem Ordered.run (h : a.Ordered) {call : Call} (hscope : call.scope < a.size) :
    ∃ b id, call.run hasher a = some (b, id) ∧ b.Ordered ∧ a.Extends b ∧ id < b.size := by
  cases call with
  | add id names =>
    obtain ⟨r, hr⟩ := get?_eq_some_iff.mpr hscope
    obtain ⟨b, id', -, hadd, hb, hext, hlt, -⟩ := h.add (names?_eq_some_iff.mpr ⟨r, hr, rfl⟩) names
    exact ⟨b, id', hadd, hb, hext, hlt⟩
  | push id =>
    obtain ⟨b, id', hpush, hb, hext, hlt, -⟩ := h.push hscope
    exact ⟨b, id', hpush, hb, hext, hlt⟩
  | pop id =>
    obtain ⟨id', hpop, hlt⟩ := h.pop hscope
    exact ⟨a, id', congrArg (Option.map (a, ·)) hpop, h, .refl a, hlt⟩

theorem scope_lt_of_run {call : Call} {id : Nat} (h : call.run hasher a = some (b, id)) : call.scope < a.size := by
  by_contra hscope
  have hnone : a.get? call.scope = none := Array.getElem?_eq_none (Nat.le_of_not_lt hscope)
  cases call with
  | add id names =>
    rw [Call.run, add, show a.get? id = none from hnone] at h
    cases h
  | push id =>
    rw [Call.run, push, show a.get? id = none from hnone] at h
    cases h
  | pop id =>
    rw [Call.run, pop, show a.get? id = none from hnone] at h
    cases h

theorem Ordered.runAll (h : a.Ordered) {calls : List Call} (hruns : a.runAll hasher calls = some b) :
    b.Ordered ∧ a.Extends b := by
  induction calls generalizing a with
  | nil =>
    cases hruns
    exact ⟨h, .refl _⟩
  | cons call calls ih =>
    obtain ⟨⟨c, id⟩, hcall, hrest⟩ := Option.bind_eq_some_iff.mp hruns
    obtain ⟨c', id', hrun, hc, hext, -⟩ := h.run (scope_lt_of_run hcall)
    cases hcall.symm.trans hrun
    obtain ⟨hb, hext'⟩ := ih hc hrest
    exact ⟨hb, hext.trans hext'⟩

/-- What holds of an arena that stores scopes for good. -/
structure Store (hasher : Hasher) (a : Arena) : Prop where
  /-- Names are in order, each of them once. -/
  sorted : ∀ id names, a.names? id = some names → Sorted names
  parent_lt : ∀ id p, a.parent? id = some p → p < id
  /-- Every call about a scope that exists answers with a scope. -/
  answers : ∀ call : Call, call.scope < a.size → ∃ b id, call.run hasher a = some (b, id) ∧ id < b.size
  /-- No calls change what is answered about a scope. -/
  agrees : ∀ calls b, a.runAll hasher calls = some b → a.Agrees b
  has_iff : ∀ id < a.size, ∀ name, ∃ answer, a.has? id name = some answer ∧
    (answer = true ↔ ∃ outer names, a.Encloses outer id ∧ a.names? outer = some names ∧ name ∈ names)
  add : ∀ id names more, a.names? id = some names →
    ∃ b id' merged, a.add hasher id more = some (b, id') ∧ b.names? id' = some merged ∧ Sorted merged ∧
      (∀ n, n ∈ merged ↔ n ∈ names ∨ n ∈ more) ∧ b.parent? id' = a.parent? id ∧
      (id' = id ↔ ∀ n ∈ more, n ∈ names)
  pop_add_push : ∀ id < a.size, ∀ names, ∃ b inner c filled, a.push hasher id = some (b, inner) ∧
    b.add hasher inner names = some (c, filled) ∧ c.pop filled = some id

/-- Calls from the empty root on, in any order and about any scopes, make a store. -/
theorem runAll_store {calls : List Call} (h : (Arena.new hasher).runAll hasher calls = some a) : a.Store hasher := by
  obtain ⟨ha, -⟩ := (Ordered.new hasher).runAll h
  have hsorted {b : Arena} (hb : b.Ordered) (id : Nat) (names : List Text) (hnames : b.names? id = some names) :
      Sorted names := by
    obtain ⟨r, hr, rfl⟩ := names?_eq_some_iff.mp hnames
    exact hb.names id r hr
  constructor
  · exact hsorted ha
  · intro id p hp
    obtain ⟨r, hr, hparent⟩ := parent?_eq_some_iff.mp hp
    exact ha.parent id r p hr hparent
  · intro call hscope
    obtain ⟨b, id, hrun, -, -, hlt⟩ := ha.run hscope
    exact ⟨b, id, hrun, hlt⟩
  · intro more b hmore
    exact ha.agrees_of_extends (ha.runAll hmore).2
  · intro id hid name
    exact ha.has?_iff hid name
  · intro id names more hnames
    obtain ⟨b, id', merged, hadd, hb, -, -, hmerged, hrest⟩ := ha.add hnames more
    exact ⟨b, id', merged, hadd, hmerged, hsorted hb id' merged hmerged, hrest⟩
  · intro id hid names
    exact ha.pop_add_push hid names

/-- Two functions are entered from one scope, and the second is left again. -/
theorem runAll_store_branches :
    ∃ a, (Arena.new fun _ => 0).runAll (fun _ => 0)
        [.add 0 [[98], [97]], .push 1, .add 2 [[99]], .push 1, .add 4 [[97], [100]], .pop 5] = some a ∧
      a.Store fun _ => 0 := by
  obtain ⟨a, ha⟩ := Option.isSome_iff_exists.mp (show ((Arena.new fun _ => 0).runAll (fun _ => 0)
    [.add 0 [[98], [97]], .push 1, .add 2 [[99]], .push 1, .add 4 [[97], [100]], .pop 5]).isSome by decide +kernel)
  exact ⟨a, ha, runAll_store ha⟩

end Bareword.Scope.Arena
