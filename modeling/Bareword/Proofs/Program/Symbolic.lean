import Bareword.Proofs.Machine.Renaming
import Bareword.Proofs.Program.Image

/-! # What programs mean before they are linked

A program can be run as it stands, with its labels in place: a label does nothing, and an instruction
that leads elsewhere leads to a position among all instructions. Linking takes the labels out and turns
positions into indices, and the machine then takes the same steps, except those over labels.

* `Program.destination?`: where an instruction leads to in a program that is not linked.
* `Machine.walk`: what the next instruction of such a program does.
* `Program.address`: the index of a position after linking.
* `Program.Linked.matches`: what a linked instruction has to do with the one that it was made from.
-/

namespace Bareword
set_option autoImplicit false
open Machine (usesTarget Matches Exec State Code Trouble)

/-! ## Programs with labels -/

namespace Program

/-- The position of the first label with a name. -/
def labelAt? (is : List Instruction) (name : Text) : Option Nat :=
  is.findIdx? fun i => i.isLabel && i.name == name

/-- How many instructions have to be passed over to leave `n` behind that are no labels. -/
def skip : Nat → List Instruction → Nat
  | 0, _ => 0
  | _ + 1, [] => 0
  | n + 1, i :: is => if i.isLabel then skip (n + 1) is + 1 else skip n is + 1

/-- The position that the instruction at position `k` leads to: that of its label, or the one after as
many instructions as its target says, labels not counted. -/
def destination? (is : List Instruction) (k : Nat) (i : Instruction) : Option Nat :=
  match i.mode with
  | .label => labelAt? is i.label
  | .relative => some (k + 1 + skip i.target.toInt.toNat (is.drop (k + 1)))
  | _ => none

/-- The instruction at position `k` with the position that it leads to as its target. -/
def direct (is : List Instruction) (k : Nat) (i : Instruction) : Instruction :=
  match destination? is k i with
  | some t => { i with target := Int64.ofNat t }
  | none => i

/-- The instructions of a program as they stand, with the values that they push. -/
def codeWith (p : Program) (values : List Value) : Code := ⟨p.instructions.toArray, values.toArray⟩

/-- The index that a position has when the labels are gone. What is no position stays as it is. -/
def address (is : List Instruction) (t : Int64) : Int64 :=
  if 0 ≤ t.toInt ∧ t.toInt ≤ is.length then Int64.ofNat (Instruction.size (is.take t.toInt.toNat)) else t

/-- The addresses after linking, with all environments as they are. -/
abbrev relinked (is : List Instruction) : Renaming := { entry := address is }

end Program

namespace Machine

/-- What the next instruction does in a program with labels. A label does nothing. -/
def walk (code : Code) (host : Host) : Exec Bool := do
  let s ← get
  match code.get? s.ip with
  | none =>
    fail .invalidOperation
      ("instruction pointer " ++ Text.decimal s.ip.toInt ++ " out of range")
  | some i =>
    set { s with ip := s.ip + 1 }
    if i.isLabel then return false
    else
      let k := s.ip.toInt.toNat
      execute code host k (Program.direct code.instructions.toList k i)

end Machine

/-! ## Positions and indices -/

namespace Program
variable {is : List Instruction}

theorem size_take_succ {k : Nat} {i : Instruction} (h : is[k]? = some i) :
    Instruction.size (is.take (k + 1)) =
      Instruction.size (is.take k) + if i.isLabel then 0 else 1 := by
  rw [List.take_add_one, h, Image.size_append]
  cases hi : i.isLabel with
  | true => exact congrArg _ (Image.size_cons_label hi [])
  | false => exact congrArg _ (Image.size_cons hi [])

theorem size_take_le (is : List Instruction) (k : Nat) :
    Instruction.size (is.take k) ≤ Instruction.size is := by
  have h := Image.size_append (is.take k) (is.drop k)
  rw [List.take_append_drop] at h
  omega

theorem skip_le_length (n : Nat) (is : List Instruction) : skip n is ≤ is.length := by
  induction is generalizing n with
  | nil => cases n <;> exact Nat.le_refl _
  | cons i is ih =>
    cases n with
    | zero => exact Nat.zero_le _
    | succ n =>
      rw [skip, List.length_cons]
      split
      · exact Nat.succ_le_succ (ih _)
      · exact Nat.succ_le_succ (ih _)

/-- Exactly `n` of the instructions passed over are no labels. -/
theorem size_take_skip (n : Nat) (is : List Instruction) (h : n ≤ Instruction.size is) :
    Instruction.size (is.take (skip n is)) = n := by
  induction is generalizing n with
  | nil =>
    have hn : n = 0 := Nat.le_zero.mp h
    subst hn
    rfl
  | cons i is ih =>
    cases n with
    | zero => rfl
    | succ n =>
      rw [skip]
      cases hi : i.isLabel with
      | true =>
        rw [Image.size_cons_label hi] at h
        rw [if_pos rfl, List.take_succ_cons, Image.size_cons_label hi, ih _ h]
      | false =>
        rw [Image.size_cons hi] at h
        rw [if_neg (by simp), List.take_succ_cons, Image.size_cons hi, ih _ (Nat.le_of_succ_le_succ h)]

theorem address_ofNat {k : Nat} (hk : k ≤ is.length) (hsmall : is.length < 2 ^ 63) :
    address is (Int64.ofNat k) = Int64.ofNat (Instruction.size (is.take k)) := by
  have hint : (Int64.ofNat k).toInt = k := Int64.toInt_ofNat_of_lt (by omega)
  rw [address, hint, if_pos ⟨by omega, by omega⟩, Int.toNat_natCast]

/-- The labels found by linking are those of the program, with the indices of their positions. -/
theorem labelAt?_of_labels {known table : List (Text × Nat)} {n : Nat} (h : labels known n is = .ok table)
    {name : Text} {t : Nat} (ht : table.lookup name = some t) :
    known.lookup name = some t ∨
      ∃ k, labelAt? is name = some k ∧ t = n + Instruction.size (is.take k) := by
  induction is generalizing known n with
  | nil =>
    rw [labels] at h
    cases h
    exact .inl ht
  | cons i is ih =>
    rw [labels] at h
    have hat : labelAt? (i :: is) name =
        if i.isLabel && i.name == name then some 0 else (labelAt? is name).map (· + 1) :=
      List.findIdx?_cons
    rw [hat]
    cases hi : i.isLabel with
    | true =>
      rw [if_pos hi] at h
      split at h
      · cases h
      · by_cases hname : i.name = name
        · -- A label that was met keeps its index, so this is the one.
          have hhead : table.lookup name = some n := Image.labels_known h (by simp [hname])
          rw [ht] at hhead
          cases hhead
          exact .inr ⟨0, by simp [hname], rfl⟩
        · have hne : (i.name == name) = false := beq_false_of_ne hname
          obtain hknown | ⟨k, hk, hkt⟩ := ih h
          · rw [List.lookup_cons, beq_false_of_ne (Ne.symm hname)] at hknown
            exact .inl hknown
          · refine .inr ⟨k + 1, ?_, ?_⟩
            · rw [hk, hne]
              rfl
            · rw [hkt, List.take_succ_cons, Image.size_cons_label hi]
    | false =>
      rw [if_neg (by simp [hi])] at h
      refine (ih h).imp_right ?_
      rintro ⟨k, hk, hkt⟩
      refine ⟨k + 1, ?_, ?_⟩
      · rw [hk]
        rfl
      · rw [hkt, List.take_succ_cons, Image.size_cons hi]
        omega

/-- The instruction at a position that is no label has its linked form at the index of the position. -/
theorem resolveAll_get {table : List (Text × Nat)} {size n k : Nat} {is' : List Instruction}
    (h : resolveAll table size n is = .ok is') {i : Instruction} (hk : is[k]? = some i)
    (hi : i.isLabel = false) :
    ∃ i', is'[Instruction.size (is.take k)]? = some i' ∧
      resolve table size (n + Instruction.size (is.take k)) i = .ok i' := by
  induction is generalizing n k is' with
  | nil => cases hk
  | cons j is ih =>
    rw [resolveAll] at h
    cases hj : j.isLabel with
    | true =>
      rw [if_pos hj] at h
      cases k with
      | zero =>
        cases hk
        rw [hi] at hj
        cases hj
      | succ k =>
        rw [List.take_succ_cons, Image.size_cons_label hj]
        exact ih h hk
    | false =>
      rw [if_neg (by simp [hj])] at h
      split at h
      · cases h
      · rename_i j' hj'
        split at h
        · cases h
        · rename_i rest hrest
          cases h
          cases k with
          | zero =>
            cases hk
            exact ⟨j', rfl, hj'⟩
          | succ k =>
            rw [List.take_succ_cons, Image.size_cons hj, List.getElem?_cons_succ,
              show n + (Instruction.size (is.take k) + 1) = n + 1 + Instruction.size (is.take k) by omega]
            exact ih hrest hk

/-! ## Linked targets -/

/-- The instruction leads to a label, or some way on, which is not longer than the program. -/
def Leads (p : Program) (i : Instruction) : Prop :=
  i.mode = .label ∨ i.mode = .relative ∧ 0 ≤ i.target.toInt ∧ i.target.toInt ≤ p.instructions.length

/-- What there is to know of a program and its linked form. -/
structure Linked (p q : Program) (table : List (Text × Nat)) : Prop where
  labels : labels [] 0 p.instructions = .ok table
  resolved : resolveAll table (Instruction.size p.instructions) 0 p.instructions = .ok q.instructions
  linked : q.linked = true

theorem linked_of_link {p q : Program} (hp : p.linked = false) (h : p.link = .ok q) :
    ∃ table, Linked p q table := by
  obtain ⟨table, is, htable, hres, rfl⟩ := link_eq_ok hp h
  exact ⟨table, htable, hres, rfl⟩

/-- A destination is a position, and its index is the linked target. -/
theorem Linked.destination {p q : Program} {table : List (Text × Nat)} (h : Linked p q table)
    (hsmall : p.instructions.length < 2 ^ 62) {k : Nat} {i i' : Instruction}
    (hi : i.isLabel = false) (hget : p.instructions[k]? = some i) (hleads : p.Leads i)
    (hres : resolve table (Instruction.size p.instructions)
      (Instruction.size (p.instructions.take k)) i = .ok i') :
    ∃ t, destination? p.instructions k i = some t ∧ t ≤ p.instructions.length ∧
      i'.target = Int64.ofNat (Instruction.size (p.instructions.take t)) := by
  rcases hleads with hmode | ⟨hmode, hpos, hle⟩
  · obtain ⟨t, ht, htarget⟩ := Image.resolve_label hres hmode
    obtain hknown | ⟨d, hd, htd⟩ := labelAt?_of_labels h.labels ht
    · cases hknown
    · rw [Nat.zero_add] at htd
      refine ⟨d, ?_, Nat.le_of_lt (List.findIdx?_eq_some_iff_getElem.mp hd).1, ?_⟩
      · rw [destination?, hmode]
        exact hd
      · rw [htarget, htd]
  · obtain ⟨htarget, hinside⟩ := Image.resolve_relative hres hmode
    have hlt := (List.getElem?_eq_some_iff.mp hget).1
    have hbefore := size_take_le p.instructions k
    have hnext := size_take_succ hget
    rw [hi, if_neg (by simp)] at hnext
    have hall : Instruction.size (p.instructions.take (k + 1)) +
        Instruction.size (p.instructions.drop (k + 1)) = Instruction.size p.instructions := by
      rw [← Image.size_append, List.take_append_drop]
    have hsize : Instruction.size p.instructions ≤ p.instructions.length := List.countP_le_length
    obtain ⟨m, hm⟩ : ∃ m : Nat, i.target.toInt = m := Int.eq_ofNat_of_zero_le hpos
    have hofm : i.target = Int64.ofNat m := by
      rw [← Int64.toInt_inj, Int64.toInt_ofNat_of_lt (by omega), hm]
    -- The sum does not wrap around, so the check that it is in range means what it says.
    rw [hofm, ← Int64.ofNat_add, Int64.lt_iff_toInt_lt, Int64.toInt_ofNat_of_lt (by omega),
      Int64.toInt_ofNat_of_lt (by omega)] at hinside
    have henough : m ≤ Instruction.size (p.instructions.drop (k + 1)) := by omega
    refine ⟨k + 1 + skip m (p.instructions.drop (k + 1)), ?_, ?_, ?_⟩
    · rw [destination?, hmode, hm]
      rfl
    · have hskip := skip_le_length m (p.instructions.drop (k + 1))
      rw [List.length_drop] at hskip
      omega
    · rw [htarget, hofm, ← Int64.ofNat_add, List.take_add, Image.size_append, size_take_skip m _ henough,
        hnext]

theorem direct_keeps (is : List Instruction) (k : Nat) (i : Instruction) : Image.Keeps i (direct is k i) := by
  rw [direct]
  split <;> exact ⟨rfl, rfl, rfl, rfl, rfl, rfl⟩

/-- A linked instruction does what the instruction does where it stands. -/
theorem Linked.matches {p q : Program} {table : List (Text × Nat)} (h : Linked p q table)
    (hsmall : p.instructions.length < 2 ^ 62)
    (hleads : ∀ i ∈ p.instructions, usesTarget i.op = true → p.Leads i) {k : Nat} {i : Instruction}
    (hget : p.instructions[k]? = some i) (hi : i.isLabel = false) :
    ∃ i', q.instructions[Instruction.size (p.instructions.take k)]? = some i' ∧ Image.Keeps i i' ∧
      Matches (relinked p.instructions) (direct p.instructions k i) i' := by
  obtain ⟨i', hi', hres⟩ := resolveAll_get h.resolved hget hi
  rw [Nat.zero_add] at hres
  have hlinked := Image.resolve_keeps hres
  have hdirect := direct_keeps p.instructions k i
  refine ⟨i', hi', hlinked, hlinked.op.trans hdirect.op.symm, hlinked.name.trans hdirect.name.symm,
    hlinked.params.trans hdirect.params.symm, hlinked.count.trans hdirect.count.symm, fun huses => ?_⟩
  rw [hdirect.op] at huses
  obtain ⟨hlt, -⟩ := List.getElem?_eq_some_iff.mp hget
  obtain ⟨t, ht, hle, htarget⟩ := h.destination hsmall hi hget
    (hleads i (List.mem_of_getElem? hget) huses) hres
  rw [htarget, direct, ht]
  exact (address_ofNat hle (by omega)).symm

/-! ## Constants -/

/-- There are values for all literals of a program if and only if there are values for those of its linked
form. -/
theorem Linked.constants_iff {p q : Program} {table : List (Text × Nat)} (h : Linked p q table) :
    (∃ values, Machine.constants 0 q.instructions = .ok values) ↔
      ∃ values, Machine.constants 0 p.instructions = .ok values := by
  constructor
  · rintro ⟨values, hvalues⟩
    refine Image.constants_eq_ok fun i hi hop => ?_
    obtain ⟨k, hk⟩ := List.mem_iff_getElem?.mp hi
    have hlabel : i.isLabel = false := by simp [Instruction.isLabel, hop]
    obtain ⟨i', hi', hres⟩ := resolveAll_get h.resolved hk hlabel
    have hkeeps := Image.resolve_keeps hres
    obtain ⟨v, hv, -⟩ := Image.constants_get hvalues hi' (hkeeps.op.trans hop)
    exact ⟨v, hkeeps.value ▸ hv⟩
  · rintro ⟨values, hvalues⟩
    refine Image.constants_eq_ok fun i' hi' hop => ?_
    obtain ⟨i, hi, hkeeps⟩ := Image.mem_resolveAll h.resolved hi'
    obtain ⟨k, hk⟩ := List.mem_iff_getElem?.mp hi
    obtain ⟨v, hv, -⟩ := Image.constants_get hvalues hk (hkeeps.op.symm.trans hop)
    exact ⟨v, hkeeps.value ▸ hv⟩

end Program

/-! ## Steps -/

namespace Machine

theorem Code.get?_eq_some {code : Code} {ip : Int64} {i : Instruction} (h : code.get? ip = some i) :
    ∃ k : Nat, ip.toInt = k ∧ ip = Int64.ofNat k ∧ code.instructions[k]? = some i := by
  rw [Code.get?] at h
  split at h
  · cases h
  · rename_i hneg
    rw [Int64.lt_iff_toInt_lt, Int64.toInt_zero] at hneg
    obtain ⟨k, hk⟩ := Int.eq_ofNat_of_zero_le (Int.not_lt.mp hneg)
    have hlt := Int64.toInt_lt ip
    rw [hk, Int.toNat_natCast] at h
    refine ⟨k, hk, ?_, h⟩
    rw [← Int64.toInt_inj, Int64.toInt_ofNat_of_lt (by omega), hk]

/-- What the code pushes is no function and no record. -/
def PlainCode (code : Code) : Prop :=
  ∀ k i, code.instructions[k]? = some i → i.op = .push → (code.constants.getD k .hole).isPlain = true

/-- The machine of a program pushes the values of literals. -/
theorem plainCode_of_ofProgram {vars : List (Text × Value)} {p : Program} {m : Machine}
    (h : ofProgram vars p = .ok m) : PlainCode m.code := by
  obtain ⟨q, values, -, hvalues, rfl⟩ := ofProgram_eq_ok h
  intro k i hi hop
  rw [List.getElem?_toArray] at hi
  obtain ⟨v, hv, hget⟩ := Image.constants_get hvalues hi hop
  rw [Array.getD_eq_getD_getElem?, List.getElem?_toArray, hget]
  exact Value.isPlain_ofLiteral hv

section
variable {code : Code} {host : Host} {s : State}

/-- The fault of leaving the program. -/
def outside (ip : Int64) : Trouble :=
  .fault (.of .invalidOperation ("instruction pointer " ++ Text.decimal ip.toInt ++ " out of range"))

theorem step_of_none (h : code.get? s.ip = none) : step code host s = .error (outside s.ip) s := by
  show (match code.get? s.ip with | none => _ | some i => _ : Exec Bool) s = _
  rw [h]
  rfl

theorem step_of_some {i : Instruction} (h : code.get? s.ip = some i) :
    step code host s = execute code host s.ip.toInt.toNat i { s with ip := s.ip + 1 } := by
  show (match code.get? s.ip with | none => _ | some i => _ : Exec Bool) s = _
  rw [h]
  rfl

theorem walk_of_none (h : code.get? s.ip = none) : walk code host s = .error (outside s.ip) s := by
  show (match code.get? s.ip with | none => _ | some i => _ : Exec Bool) s = _
  rw [h]
  rfl

theorem walk_of_label {i : Instruction} (h : code.get? s.ip = some i) (hi : i.isLabel = true) :
    walk code host s = .ok false { s with ip := s.ip + 1 } := by
  show (match code.get? s.ip with | none => _ | some i => _ : Exec Bool) s = _
  rw [h]
  show (if i.isLabel then _ else _ : Exec Bool) { s with ip := s.ip + 1 } = _
  rw [if_pos hi]
  rfl

theorem walk_of_some {i : Instruction} (h : code.get? s.ip = some i) (hi : i.isLabel = false) :
    walk code host s = execute code host s.ip.toInt.toNat
      (Program.direct code.instructions.toList s.ip.toInt.toNat i) { s with ip := s.ip + 1 } := by
  show (match code.get? s.ip with | none => _ | some i => _ : Exec Bool) s = _
  rw [h]
  show (if i.isLabel then _ else _ : Exec Bool) { s with ip := s.ip + 1 } = _
  rw [if_neg (by simp [hi])]

end

end Machine
end Bareword
