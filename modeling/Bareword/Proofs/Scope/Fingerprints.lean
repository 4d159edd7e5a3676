import Bareword.Proofs.Scope.Records

/-! # Fingerprints of scopes

What is fingerprinted says which names a scope binds, so scopes with one fingerprint bind the same
names unless the fingerprint function collides on them.

* `signature_inj`: the signature of a scope determines its names and its parent's fingerprint.
* `Arena.CollisionFree`: no two records with different signatures have one fingerprint.
* `Arena.bindings_eq_of_hash`: one fingerprint, the same names all the way up.
-/

namespace Bareword
set_option autoImplicit false

/-! ## Names without marks -/

/-- A rune other than zero covers no zero byte. -/
theorem Text.ne_zero_of_decode {b x : UInt8} {rest : Text} (hcode : (decode b rest).code ≠ 0)
    (hx : x ∈ (b :: rest).take (decode b rest).width) : x ≠ 0 := by
  rintro rfl
  have hcont {c : UInt8} (h : isContinuation c = true) : (0 : UInt8) ≠ c := by
    rintro rfl
    exact absurd h (by decide)
  by_cases hb : b < 0x80
  · rw [decode.eq_def, if_pos hb] at hcode hx
    rw [List.take_succ_cons, List.take_zero, List.mem_singleton] at hx
    rw [← hx] at hcode
    exact hcode rfl
  have hfirst : (0 : UInt8) ≠ b := by
    rintro rfl
    exact hb (by decide)
  -- The other bytes of a longer encoding are continuations.
  unfold decode at hx
  rw [if_neg hb] at hx
  repeat' split at hx
  all_goals simp_all [Rune.invalid]

theorem Text.zero_not_mem_of_runes {s : Text} (h : ∀ r ∈ s.runes, r.code ≠ 0) : (0 : UInt8) ∉ s := by
  induction hn : s.length using Nat.strongRecOn generalizing s with
  | ind n ih =>
    cases s with
    | nil => exact List.not_mem_nil
    | cons b tail =>
      have hnext : Text.next? (b :: tail) = some (decode b tail, (b :: tail).drop (decode b tail).width) := rfl
      rw [runes_of_next? hnext, List.forall_mem_cons] at h
      have hshort := length_lt_of_next? hnext
      have hrest := ih _ (hn ▸ hshort) h.2 rfl
      intro hmem
      rw [← List.take_append_drop (decode b tail).width (b :: tail), List.mem_append] at hmem
      rcases hmem with hmem | hmem
      · exact ne_zero_of_decode h.1 hmem rfl
      · exact hrest hmem

namespace Token

theorem isName_marks {t : Text} (h : isName t = true) : (0 : UInt8) ∉ t ∧ ∃ b rest, t = b :: rest ∧ b ≠ 1 := by
  rw [isName] at h
  cases hrunes : t.runes with
  | nil =>
    rw [hrunes] at h
    cases h
  | cons r rs =>
    rw [hrunes] at h
    simp only [Bool.and_eq_true, List.all_eq_true] at h
    obtain ⟨⟨hstart, hchar⟩, hrest⟩ := h
    constructor
    · refine Text.zero_not_mem_of_runes fun x hx => ?_
      rw [hrunes, List.mem_cons] at hx
      have hname : isNameChar x.code = true := by
        rcases hx with rfl | hx
        · exact hchar
        · exact hrest x hx
      intro hzero
      rw [hzero] at hname
      exact absurd hname (by decide)
    · cases t with
      | nil =>
        rw [Text.runes] at hrunes
        cases hrunes
      | cons b rest =>
        refine ⟨b, rest, rfl, ?_⟩
        rintro rfl
        rw [Text.runes_of_next? (Text.next?_cons_ascii (by decide) rest)] at hrunes
        obtain ⟨rfl, -⟩ := List.cons.inj hrunes
        exact absurd hstart (by decide)

end Token

namespace Scope
open Digest (Hasher)

/-! ## Signatures -/

theorem wordBytes_inj {v w : UInt64} (h : wordBytes v = wordBytes w) : v = w := by
  have hbyte (i : Nat) (hi : i < 8) : v.toNat / 2 ^ (8 * i) % 256 = w.toNat / 2 ^ (8 * i) % 256 := by
    have hget := congrArg (fun t => (t[i]?).map UInt8.toNat) h
    have hshift : 8 * i % 2 ^ 64 % 64 = 8 * i := by omega
    have hsmall : 8 * i % 64 = 8 * i := by omega
    simpa [wordBytes, List.getElem?_range hi, Nat.shiftRight_eq_div_pow, hshift, hsmall] using hget
  have hlow (n : Nat) (hn : n ≤ 8) : v.toNat % 256 ^ n = w.toNat % 256 ^ n := by
    induction n with
    | zero => rw [Nat.pow_zero, Nat.mod_one, Nat.mod_one]
    | succ n ih =>
      have hdigit := hbyte n hn
      rw [Nat.pow_mul] at hdigit
      rw [Nat.mod_pow_succ, Nat.mod_pow_succ, ih (Nat.le_of_succ_le hn), hdigit]
  have hall := hlow 8 (Nat.le_refl 8)
  have hv : v.toNat < 256 ^ 8 := v.toNat_lt
  have hw : w.toNat < 256 ^ 8 := w.toNat_lt
  rw [Nat.mod_eq_of_lt hv, Nat.mod_eq_of_lt hw] at hall
  exact UInt64.toNat_inj.mp hall

theorem append_zero_inj {s t u v : Text} (hs : (0 : UInt8) ∉ s) (ht : (0 : UInt8) ∉ t)
    (h : s ++ 0 :: u = t ++ 0 :: v) : s = t ∧ u = v := by
  induction s generalizing t with
  | nil =>
    cases t with
    | nil => exact ⟨rfl, (List.cons.inj h).2⟩
    | cons b t =>
      obtain ⟨rfl, -⟩ := List.cons.inj h
      exact absurd List.mem_cons_self ht
  | cons a s ih =>
    cases t with
    | nil =>
      obtain ⟨rfl, -⟩ := List.cons.inj h
      exact absurd List.mem_cons_self hs
    | cons b t =>
      obtain ⟨rfl, hrest⟩ := List.cons.inj h
      obtain ⟨rfl, huv⟩ := ih (List.not_mem_of_not_mem_cons hs) (List.not_mem_of_not_mem_cons ht) hrest
      exact ⟨rfl, huv⟩

theorem signature_cons (name : Text) (names : List Text) (parent : Option UInt64) :
    signature (name :: names) parent = name ++ 0 :: signature names parent := by
  simp [signature, List.append_assoc]

/-- A signature without names does not start like a name. -/
theorem signature_nil_ne {name : Text} {names : List Text} {p q : Option UInt64}
    (hname : ∃ b tail, name = b :: tail ∧ b ≠ 1) : signature [] p ≠ signature (name :: names) q := by
  obtain ⟨b, tail, rfl, hb⟩ := hname
  rw [signature_cons]
  intro h
  cases p with
  | none => cases h
  | some v => exact hb (List.cons.inj h).1.symm

theorem signature_inj {names names' : List Text} {p q : Option UInt64}
    (hnames : ∀ name ∈ names, Token.isName name = true) (hnames' : ∀ name ∈ names', Token.isName name = true)
    (h : signature names p = signature names' q) : names = names' ∧ p = q := by
  induction names generalizing names' with
  | nil =>
    cases names' with
    | nil =>
      refine ⟨rfl, ?_⟩
      cases p with
      | none =>
        cases q with
        | none => rfl
        | some w => cases h
      | some v =>
        cases q with
        | none => cases h
        | some w => rw [wordBytes_inj (List.cons.inj h).2]
    | cons name' names' =>
      have hfirst := (Token.isName_marks (hnames' name' List.mem_cons_self)).2
      exact absurd h (signature_nil_ne hfirst)
  | cons name names ih =>
    cases names' with
    | nil =>
      have hfirst := (Token.isName_marks (hnames name List.mem_cons_self)).2
      exact absurd h.symm (signature_nil_ne hfirst)
    | cons name' names' =>
      rw [List.forall_mem_cons] at hnames hnames'
      rw [signature_cons, signature_cons] at h
      obtain ⟨rfl, hrest⟩ := append_zero_inj (Token.isName_marks hnames.1).1 (Token.isName_marks hnames'.1).1 h
      obtain ⟨rfl, rfl⟩ := ih hnames.2 hnames'.2 hrest
      exact ⟨rfl, rfl⟩

namespace Arena

variable {hasher : Hasher} {a : Arena}

/-! ## Keys -/

/-- Every record has the fingerprint of its key. -/
def Keyed (hasher : Hasher) (a : Arena) : Prop := ∀ id r, a.get? id = some r → r.hash = hasher (a.key r)

/-- All names of the arena are names that a source can spell. -/
def Named (a : Arena) : Prop := ∀ id r, a.get? id = some r → ∀ name ∈ r.names, Token.isName name = true

theorem ParentsFirst.hash?_parent (h : a.ParentsFirst) {id p : Nat} {r : Record} (hr : a.get? id = some r)
    (hp : r.parent = some p) : a.hash? p = some ((a.hash? p).getD 0) := by
  obtain ⟨s, hs⟩ := get?_eq_some_iff.mpr (h.lt_size hr hp)
  rw [hash?, hs]
  rfl

/-- The key of a record determines its names and the fingerprint of its parent. -/
theorem ParentsFirst.key_inj (h : a.ParentsFirst) {x y : Nat} {r s : Record} (hr : a.get? x = some r)
    (hs : a.get? y = some s) (hnames : ∀ name ∈ r.names, Token.isName name = true) (hnames' : ∀ name ∈ s.names, Token.isName name = true)
    (hkey : a.key r = a.key s) : r.names = s.names ∧ r.parent.bind a.hash? = s.parent.bind a.hash? := by
  obtain ⟨hsame, hparents⟩ := signature_inj hnames hnames' hkey
  refine ⟨hsame, ?_⟩
  have hbind {id : Nat} {q : Record} (hq : a.get? id = some q) :
      q.parent.bind a.hash? = q.parent.map fun p => (a.hash? p).getD 0 := by
    cases hp : q.parent with
    | none => rfl
    | some p => exact h.hash?_parent hq hp
  rw [hbind hr, hbind hs, hparents]

/-! ## Collisions -/

/-- No two records with different signatures have one fingerprint. -/
def CollisionFree (hasher : Hasher) (a : Arena) : Prop :=
  ∀ i j r s, a.get? i = some r → a.get? j = some s → hasher (a.key r) = hasher (a.key s) → a.key r = a.key s

/-- An earlier arena has no collisions that a later one has not. -/
theorem CollisionFree.of_extends {b : Arena} (h : b.CollisionFree hasher) (hsound : a.Sound hasher)
    (hext : a.Extends b) : a.CollisionFree hasher := by
  intro i j r s hr hs heq
  have hkey (i : Nat) (r : Record) (hr : a.get? i = some r) : b.key r = a.key r :=
    key_of_extends hext fun p hp => Nat.lt_trans (hsound.parent i r p hr hp) (get?_eq_some_iff.mp ⟨r, hr⟩)
  have hb := h i j r s (hext i r hr) (hext j s hs)
  rw [hkey i r hr, hkey j s hs] at hb
  exact hb heq

/-- An arena is free of collisions when no two of its records, looked at one by one, collide. -/
theorem collisionFree_iff :
    a.CollisionFree hasher ↔
      ∀ r ∈ a.records, ∀ s ∈ a.records, hasher (a.key r) = hasher (a.key s) → a.key r = a.key s := by
  constructor
  · intro h r hr s hs
    obtain ⟨i, hi⟩ := Array.mem_iff_getElem?.mp hr
    obtain ⟨j, hj⟩ := Array.mem_iff_getElem?.mp hs
    exact h i j r s hi hj
  · intro h i j r s hi hj
    exact h r (Array.mem_of_getElem? hi) s (Array.mem_of_getElem? hj)

instance (hasher : Hasher) (a : Arena) : Decidable (a.CollisionFree hasher) := decidable_of_iff _ collisionFree_iff.symm

/-- Without collisions, scopes with one fingerprint bind the same names all the way up. -/
theorem ParentsFirst.bindings_eq_of_hash (h : a.ParentsFirst) (hkeyed : a.Keyed hasher) (hnamed : a.Named)
    (hfree : a.CollisionFree hasher) {x y : Nat} (hx : x < a.size) (hy : y < a.size) (hsame : a.hash? x = a.hash? y) :
    a.bindings x = a.bindings y := by
  induction x using Nat.strongRecOn generalizing y with
  | ind x ih =>
    obtain ⟨r, hr⟩ := get?_eq_some_iff.mpr hx
    obtain ⟨s, hs⟩ := get?_eq_some_iff.mpr hy
    have hkey : a.key r = a.key s := by
      refine hfree x y r s hr hs ?_
      rw [hash?, hash?, hr, hs] at hsame
      rw [← hkeyed x r hr, ← hkeyed y s hs]
      exact Option.some.inj hsame
    obtain ⟨hnames, hparents⟩ := h.key_inj hr hs (hnamed x r hr) (hnamed y s hs) hkey
    rw [h.bindings_eq_cons hr, h.bindings_eq_cons hs, hnames]
    refine congrArg (s.names :: ·) ?_
    cases hp : r.parent with
    | none =>
      cases hq : s.parent with
      | none => rfl
      | some q =>
        rw [hp, hq, Option.bind_none, Option.bind_some, h.hash?_parent hs hq] at hparents
        cases hparents
    | some p =>
      cases hq : s.parent with
      | none =>
        rw [hp, hq, Option.bind_none, Option.bind_some, h.hash?_parent hr hp] at hparents
        cases hparents
      | some q =>
        rw [hp, hq, Option.bind_some, Option.bind_some] at hparents
        exact ih p (h x r p hr hp) (h.lt_size hr hp) (h.lt_size hs hq) hparents

theorem bindings_eq_of_hash (hsound : a.Sound hasher) (hfree : a.CollisionFree hasher) {i j : Nat} {v : UInt64}
    (hi : a.hash? i = some v) (hj : a.hash? j = some v) : a.bindings i = a.bindings j := by
  obtain ⟨r, hr, -⟩ := Option.map_eq_some_iff.mp hi
  obtain ⟨s, hs, -⟩ := Option.map_eq_some_iff.mp hj
  exact ParentsFirst.bindings_eq_of_hash hsound.parent hsound.hash
    (fun id r hr name hname => (hsound.names id r hr name hname).1) hfree (get?_eq_some_iff.mp ⟨r, hr⟩)
    (get?_eq_some_iff.mp ⟨s, hs⟩) (hi.trans hj.symm)

end Arena
end Scope
end Bareword
