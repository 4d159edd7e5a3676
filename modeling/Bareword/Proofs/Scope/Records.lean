import Bareword.Scope.Arena
import Bareword.Proofs.Token.Tokens

/-! # Records of scopes

Records never change, so whatever holds of a scope holds in every later arena.

* `Arena.Extends`: an arena with more records.
* `Arena.bindings`: the names along the chain of a scope, and what adding, entering and leaving do to them.
* `Arena.Sound`: parents come first and fingerprints are those of the records.
* `Sound.bindings_eq`: without collisions, scopes with one fingerprint bind the same names.
-/

namespace Bareword.Scope
set_option autoImplicit false
open Digest (Hasher)

/-! ## Lists of names -/

theorem bind_cases (names : List Text) (name : Text) :
    bind names name = names ∨ ∃ i, bind names name = names.take i ++ name :: names.drop i := by
  rw [bind]
  split
  · exact .inl rfl
  · exact .inr ⟨place names name, rfl⟩

theorem length_bind (names : List Text) (name : Text) :
    bind names name = names ∨ (bind names name).length = names.length + 1 := by
  rcases bind_cases names name with h | ⟨i, h⟩
  · exact .inl h
  · right
    have hlen := congrArg List.length (List.take_append_drop i names)
    rw [List.length_append] at hlen
    rw [h, List.length_append, List.length_cons]
    omega

theorem length_le_foldl_bind (more names : List Text) : names.length ≤ (more.foldl bind names).length := by
  induction more generalizing names with
  | nil => exact Nat.le_refl _
  | cons name more ih =>
    have hrest := ih (bind names name)
    rw [List.foldl_cons]
    rcases length_bind names name with h | h
    · rwa [h] at hrest ⊢
    · omega

/-- Names that make a list no longer were in it. -/
theorem foldl_bind_eq_self {more names : List Text} (h : (more.foldl bind names).length = names.length) :
    more.foldl bind names = names := by
  induction more generalizing names with
  | nil => rfl
  | cons name more ih =>
    rw [List.foldl_cons] at h ⊢
    have hle := length_le_foldl_bind more (bind names name)
    rcases length_bind names name with hb | hb
    · rw [hb] at h ⊢
      exact ih h
    · omega

theorem mem_of_mem_bind {names : List Text} {name x : Text} (h : x ∈ bind names name) : x ∈ names ∨ x = name := by
  rcases bind_cases names name with hb | ⟨i, hb⟩
  · rw [hb] at h
    exact .inl h
  · rw [hb, List.mem_append, List.mem_cons] at h
    rcases h with h | h | h
    · exact .inl (List.mem_of_mem_take h)
    · exact .inr h
    · exact .inl (List.mem_of_mem_drop h)

theorem mem_of_mem_foldl_bind {more names : List Text} {x : Text} (h : x ∈ more.foldl bind names) :
    x ∈ names ∨ x ∈ more := by
  induction more generalizing names with
  | nil => exact .inl h
  | cons name more ih =>
    rcases ih h with h | h
    · rcases mem_of_mem_bind h with h | rfl
      · exact .inl h
      · exact .inr (List.mem_cons_self)
    · exact .inr (List.mem_cons_of_mem name h)

theorem mem_of_holds {names : List Text} {name : Text} (h : holds names name = true) : name ∈ names :=
  List.mem_of_getElem? (eq_of_beq h)

namespace Arena

/-! ## Later arenas -/

/-- The arena `b` has all the records of `a`. -/
def Extends (a b : Arena) : Prop := ∀ id r, a.get? id = some r → b.get? id = some r

theorem Extends.refl (a : Arena) : a.Extends a := fun _ _ h => h

theorem Extends.trans {a b c : Arena} (h : a.Extends b) (h' : b.Extends c) : a.Extends c :=
  fun id r hr => h' id r (h id r hr)

theorem get?_eq_some_iff {a : Arena} {id : Nat} : (∃ r, a.get? id = some r) ↔ id < a.size := by
  constructor
  · rintro ⟨r, h⟩
    exact (Array.getElem?_eq_some_iff.mp h).1
  · intro h
    exact ⟨a.records[id], Array.getElem?_eq_getElem h⟩

theorem Extends.size_le {a b : Arena} (h : a.Extends b) : a.size ≤ b.size := by
  rcases Nat.eq_zero_or_pos a.size with hzero | hpos
  · omega
  · obtain ⟨r, hr⟩ := get?_eq_some_iff.mpr (Nat.sub_lt hpos Nat.one_pos)
    have hlt := get?_eq_some_iff.mp ⟨r, h _ r hr⟩
    omega

theorem Extends.alloc (a : Arena) (r : Record) : a.Extends (a.alloc r).1 := by
  intro id r' h
  have hlt := get?_eq_some_iff.mp ⟨r', h⟩
  change (a.records.push r)[id]? = some r'
  rw [Array.getElem?_push_lt hlt]
  exact (Array.getElem?_eq_getElem hlt).symm.trans h

theorem get?_alloc (a : Arena) (r : Record) : (a.alloc r).1.get? (a.alloc r).2 = some r :=
  Array.getElem?_push_size

/-- The records of a longer arena are those there were and the new one. -/
theorem get?_alloc_cases {a : Arena} {r s : Record} {id : Nat} (h : (a.alloc r).1.get? id = some s) :
    a.get? id = some s ∨ (id = a.size ∧ s = r) := by
  have hlt := get?_eq_some_iff.mp ⟨s, h⟩
  by_cases hid : id < a.size
  · obtain ⟨s', hs'⟩ := get?_eq_some_iff.mpr hid
    rw [Extends.alloc a r id s' hs'] at h
    exact .inl (hs'.trans h)
  · have hsize : (a.alloc r).1.size = a.size + 1 := Array.size_push r
    obtain rfl : id = a.size := by omega
    rw [show (a.alloc r).1.get? a.size = some r from get?_alloc a r] at h
    exact .inr ⟨rfl, (Option.some.inj h).symm⟩

theorem get?_new {hasher : Hasher} {id : Nat} {r : Record} (h : (Arena.new hasher).get? id = some r) :
    r = ⟨none, [], hasher (signature [] none)⟩ := by
  have hlt : id < 1 := get?_eq_some_iff.mp ⟨r, h⟩
  obtain rfl : id = 0 := by omega
  exact (Option.some.inj h).symm

theorem hash?_of_extends {a b : Arena} (h : a.Extends b) {id : Nat} (hid : id < a.size) :
    b.hash? id = a.hash? id := by
  obtain ⟨r, hr⟩ := get?_eq_some_iff.mpr hid
  rw [hash?, hash?, hr, h id r hr]

/-! ## Chains -/

theorem chain_of_extends {a b : Arena} (h : a.Extends b) {id : Nat} (hid : id < a.size) :
    b.chain id = a.chain id := by
  induction id using Nat.strongRecOn with
  | ind id ih =>
    obtain ⟨r, hr⟩ := get?_eq_some_iff.mpr hid
    rw [chain, chain, hr, h id r hr]
    dsimp only
    cases hp : r.parent with
    | none => rfl
    | some p =>
      dsimp only
      by_cases hlt : p < id
      · rw [dif_pos hlt, dif_pos hlt, ih p hlt (Nat.lt_trans hlt hid)]
      · rw [dif_neg hlt, dif_neg hlt]

theorem chain_eq_cons {a : Arena} {id : Nat} {r : Record} (hr : a.get? id = some r)
    (hparent : ∀ p, r.parent = some p → p < id) : a.chain id = r :: (r.parent.map a.chain).getD [] := by
  rw [chain, hr]
  dsimp only
  cases hp : r.parent with
  | none => rfl
  | some p =>
    dsimp only
    rw [dif_pos (hparent p hp)]
    rfl

theorem chain_of_not_lt {a : Arena} {id : Nat} (hid : ¬ id < a.size) : a.chain id = [] := by
  have hnone : a.get? id = none := Array.getElem?_eq_none (Nat.le_of_not_lt hid)
  rw [chain, hnone]

/-- The names that a scope, its parent and so on bind, up to the root. -/
def bindings (a : Arena) (id : Nat) : List (List Text) := (a.chain id).map (·.names)

/-- The names along the chain of a scope, none for no scope. -/
def outward (a : Arena) (x : Option Nat) : List (List Text) := (x.map a.bindings).getD []

/-- Parents come before their children. -/
def ParentsFirst (a : Arena) : Prop := ∀ id r p, a.get? id = some r → r.parent = some p → p < id

theorem ParentsFirst.chain_eq {a : Arena} (h : a.ParentsFirst) {id : Nat} {r : Record} (hr : a.get? id = some r) :
    a.chain id = r :: (r.parent.map a.chain).getD [] :=
  chain_eq_cons hr fun p => h id r p hr

theorem ParentsFirst.lt_size {a : Arena} (h : a.ParentsFirst) {id p : Nat} {r : Record} (hr : a.get? id = some r)
    (hp : r.parent = some p) : p < a.size :=
  Nat.lt_trans (h id r p hr hp) (get?_eq_some_iff.mp ⟨r, hr⟩)

theorem ParentsFirst.bindings_eq_cons {a : Arena} (h : a.ParentsFirst) {id : Nat} {r : Record}
    (hr : a.get? id = some r) : a.bindings id = r.names :: a.outward r.parent := by
  rw [bindings, h.chain_eq hr, List.map_cons]
  cases r.parent with
  | none => rfl
  | some p => rfl

theorem bindings_of_extends {a b : Arena} (h : a.Extends b) {id : Nat} (hid : id < a.size) :
    b.bindings id = a.bindings id := by
  rw [bindings, bindings, chain_of_extends h hid]

theorem has?_getD (a : Arena) (id : Nat) (name : Text) :
    (a.has? id name).getD false = (a.bindings id).any (holds · name) := by
  rw [has?, bindings, List.any_map]
  by_cases hid : id < a.size
  · obtain ⟨r, hr⟩ := get?_eq_some_iff.mpr hid
    rw [hr]
    rfl
  · have hnone : a.get? id = none := Array.getElem?_eq_none (Nat.le_of_not_lt hid)
    rw [hnone, chain_of_not_lt hid]
    rfl

/-! ## Sound arenas -/

/-- The bytes whose fingerprint a record has. -/
def key (a : Arena) (r : Record) : Text := signature r.names (r.parent.map fun p => (a.hash? p).getD 0)

/-- Parents come before their children, the fingerprints are those of the records, and all names are
names. -/
structure Sound (hasher : Hasher) (a : Arena) : Prop where
  parent : ∀ id r p, a.get? id = some r → r.parent = some p → p < id
  hash : ∀ id r, a.get? id = some r → r.hash = hasher (a.key r)
  names : ∀ id r, a.get? id = some r → ∀ name ∈ r.names, Token.Bindable name

variable {hasher : Hasher} {a : Arena}

theorem key_of_extends {b : Arena} (h : a.Extends b) {r : Record} (hparent : ∀ p, r.parent = some p → p < a.size) :
    b.key r = a.key r := by
  rw [key, key]
  cases hp : r.parent with
  | none => rfl
  | some p => rw [Option.map_some, Option.map_some, hash?_of_extends h (hparent p hp)]

theorem Sound.alloc (h : a.Sound hasher) {r : Record} (hparent : ∀ p, r.parent = some p → p < a.size)
    (hhash : r.hash = hasher (a.key r)) (hnames : ∀ name ∈ r.names, Token.Bindable name) :
    (a.alloc r).1.Sound hasher := by
  have hext := Extends.alloc a r
  constructor
  · intro id s p hs hp
    rcases get?_alloc_cases hs with hold | ⟨rfl, rfl⟩
    · exact h.parent id s p hold hp
    · exact hparent p hp
  · intro id s hs
    rcases get?_alloc_cases hs with hold | ⟨rfl, rfl⟩
    · rw [h.hash id s hold, key_of_extends hext fun p hp =>
        Nat.lt_trans (h.parent id s p hold hp) (get?_eq_some_iff.mp ⟨s, hold⟩)]
    · rw [hhash, key_of_extends hext hparent]
  · intro id s hs
    rcases get?_alloc_cases hs with hold | ⟨rfl, rfl⟩
    · exact h.names id s hold
    · exact hnames

theorem Sound.chain_eq (h : a.Sound hasher) {id : Nat} {r : Record} (hr : a.get? id = some r) :
    a.chain id = r :: (r.parent.map a.chain).getD [] :=
  ParentsFirst.chain_eq h.parent hr

theorem Sound.bindings_eq_cons (h : a.Sound hasher) {id : Nat} {r : Record} (hr : a.get? id = some r) :
    a.bindings id = r.names :: (r.parent.map a.bindings).getD [] :=
  ParentsFirst.bindings_eq_cons h.parent hr

theorem Sound.bindable_of_mem (h : a.Sound hasher) {id : Nat} {names : List Text} (hnames : names ∈ a.bindings id)
    {name : Text} (hname : name ∈ names) : Token.Bindable name := by
  induction id using Nat.strongRecOn with
  | ind id ih =>
    by_cases hid : id < a.size
    · obtain ⟨r, hr⟩ := get?_eq_some_iff.mpr hid
      rw [h.bindings_eq_cons hr, List.mem_cons] at hnames
      rcases hnames with rfl | hrest
      · exact h.names id r hr name hname
      · cases hp : r.parent with
        | none =>
          rw [hp] at hrest
          cases hrest
        | some p =>
          rw [hp] at hrest
          exact ih p (h.parent id r p hr hp) hrest
    · rw [bindings, chain_of_not_lt hid] at hnames
      cases hnames

theorem Sound.new (hasher : Hasher) : (Arena.new hasher).Sound hasher := by
  constructor
  · intro id r p h hp
    rw [get?_new h] at hp
    cases hp
  · intro id r h
    rw [get?_new h]
    rfl
  · intro id r h name hname
    rw [get?_new h] at hname
    cases hname

/-! ## Operations -/

/-- The innermost list of names with some more. -/
def bindTop (names : List Text) : List (List Text) → List (List Text)
  | [] => []
  | top :: rest => names.foldl bind top :: rest

/-- Adding names makes a sound later arena, with a scope that binds them. -/
theorem Sound.add (h : a.Sound hasher) {id : Nat} (hid : id < a.size) {names : List Text}
    (hnames : ∀ name ∈ names, Token.Bindable name) :
    ∃ b id', a.add hasher id names = some (b, id') ∧ b.Sound hasher ∧ a.Extends b ∧ id' < b.size ∧
      b.bindings id' = bindTop names (a.bindings id) := by
  obtain ⟨r, hr⟩ := get?_eq_some_iff.mpr hid
  rw [Arena.add, hr]
  dsimp only
  split
  · rename_i hsame
    refine ⟨a, id, rfl, h, Extends.refl a, hid, ?_⟩
    rw [h.bindings_eq_cons hr, bindTop, foldl_bind_eq_self hsame]
  · have hparent : ∀ p, r.parent = some p → p < a.size := fun p hp => Nat.lt_trans (h.parent id r p hr hp) hid
    have hsound : (a.alloc ⟨r.parent, names.foldl bind r.names, hasher (signature (names.foldl bind r.names)
        (r.parent.map fun p => (a.hash? p).getD 0))⟩).1.Sound hasher := by
      refine h.alloc hparent rfl fun name hname => ?_
      rcases mem_of_mem_foldl_bind hname with hold | hnew
      · exact h.names id r hr name hold
      · exact hnames name hnew
    refine ⟨_, _, rfl, hsound, Extends.alloc a _, ?_, ?_⟩
    · exact get?_eq_some_iff.mp ⟨_, get?_alloc a _⟩
    · refine (hsound.bindings_eq_cons (get?_alloc a _)).trans ?_
      rw [h.bindings_eq_cons hr, bindTop]
      cases hp : r.parent with
      | none => rfl
      | some p =>
        rw [Option.map_some, Option.map_some, bindings_of_extends (Extends.alloc a _) (hparent p hp)]
        rfl

/-- Entering a scope makes a sound later arena, with a scope that binds nothing itself. -/
theorem Sound.push (h : a.Sound hasher) {id : Nat} (hid : id < a.size) :
    ∃ b id', a.push hasher id = some (b, id') ∧ b.Sound hasher ∧ a.Extends b ∧ id' < b.size ∧
      b.bindings id' = [] :: a.bindings id := by
  obtain ⟨r, hr⟩ := get?_eq_some_iff.mpr hid
  rw [Arena.push, hr]
  dsimp only
  have hsound : (a.alloc ⟨some id, [], hasher (signature [] (some r.hash))⟩).1.Sound hasher := by
    refine h.alloc ?_ ?_ ?_
    · intro p hp
      cases hp
      exact hid
    · rw [key, Option.map_some, hash?, hr]
      rfl
    · exact fun name hname => nomatch hname
  refine ⟨_, _, rfl, hsound, Extends.alloc a _, ?_, ?_⟩
  · exact get?_eq_some_iff.mp ⟨_, get?_alloc a _⟩
  · refine (hsound.bindings_eq_cons (get?_alloc a _)).trans ?_
    rw [Option.map_some, Option.getD_some, bindings_of_extends (Extends.alloc a _) hid]

/-- The lists of names without the innermost one, unless it is the only one. -/
def dropTop : List (List Text) → List (List Text)
  | _ :: outer :: rest => outer :: rest
  | bs => bs

/-- Leaving a scope gives the names around it. -/
theorem Sound.pop (h : a.Sound hasher) {id : Nat} (hid : id < a.size) :
    ∃ id', a.pop id = some id' ∧ id' < a.size ∧ a.bindings id' = dropTop (a.bindings id) := by
  obtain ⟨r, hr⟩ := get?_eq_some_iff.mpr hid
  rw [Arena.pop, hr, Option.map_some]
  refine ⟨_, rfl, ?_⟩
  cases hp : r.parent with
  | none =>
    refine ⟨hid, ?_⟩
    rw [Option.getD_none, h.bindings_eq_cons hr, hp]
    rfl
  | some p =>
    have hlt := h.parent id r p hr hp
    obtain ⟨q, hq⟩ := get?_eq_some_iff.mpr (Nat.lt_trans hlt hid)
    refine ⟨Nat.lt_trans hlt hid, ?_⟩
    rw [Option.getD_some, h.bindings_eq_cons hr, hp, Option.map_some, Option.getD_some, h.bindings_eq_cons hq]
    rfl

end Arena
end Bareword.Scope
