import Bareword.Proofs.Program.Linking
import Bareword.Proofs.Program.Symbolic

/-! # The programs that linking rejects

Linking fails on labels of one name, on a target that no label has, and on a jump that leads back or past the end.
Each of these can be read off the instructions. Where a jump leads to is added up in 64 bits, so that a jump far
enough past the end is taken for one to a negative index and is let through.

* `Program.Astray`: what linking rejects in an instruction.
* `Program.Wraps`: the jumps past the end that linking lets through.
* `Program.link_rejects`: which programs are rejected, and where the targets of the others lead to.
-/

namespace Bareword.Program
set_option autoImplicit false

/-- Adding up where the relative jump at index `n` leads to leaves the range of targets. -/
def Wraps (n : Nat) (i : Instruction) : Prop := i.mode = .relative ∧ 2 ^ 63 ≤ n + 1 + i.target.toInt

/-- Linking rejects the instruction that would have index `n`, with `m` more after it. -/
inductive Astray (names : List Text) (n m : Nat) (i : Instruction) : Prop
  | unnamed (hmode : i.mode = .label) (hname : i.label ∉ names)
  | backward (hmode : i.mode = .relative) (hneg : i.target.toInt < 0)
  | beyond (hmode : i.mode = .relative) (hbeyond : m < i.target.toInt) (hwraps : ¬ Wraps n i)

variable {known table : List (Text × Nat)} {size n m : Nat} {i j : Instruction} {is js : List Instruction}

/-! ## Labels -/

/-- Labels are found only if they are new and all different. -/
theorem labels_distinct (h : labels known n is = .ok table) :
    (labelNames is).Nodup ∧ ∀ name ∈ labelNames is, known.lookup name = none := by
  induction is generalizing known n with
  | nil => exact ⟨List.nodup_nil, List.forall_mem_nil _⟩
  | cons i is ih =>
    rw [labels] at h
    cases hi : i.isLabel with
    | false =>
      rw [if_neg (by simp [hi])] at h
      rw [labelNames_cons hi]
      exact ih h
    | true =>
      rw [if_pos hi] at h
      rw [labelNames_cons_label hi]
      split at h
      · cases h
      · rename_i hnew
        obtain ⟨hdistinct, hrest⟩ := ih h
        have hname : known.lookup i.name = none := Option.not_isSome_iff_eq_none.mp hnew
        refine ⟨List.nodup_cons.mpr ⟨fun hin => ?_, hdistinct⟩, List.forall_mem_cons.mpr ⟨hname, fun name hin => ?_⟩⟩
        · have hlookup := hrest i.name hin
          rw [List.lookup_cons, beq_self_eq_true] at hlookup
          cases hlookup
        · have hlookup := hrest name hin
          rw [List.lookup_cons] at hlookup
          split at hlookup
          · cases hlookup
          · exact hlookup

theorem labels_fails : (∃ e, labels [] 0 is = .error e) ↔ ¬ (labelNames is).Nodup := by
  constructor
  · rintro ⟨e, h⟩ hdistinct
    obtain ⟨table, htable, -⟩ := labels_eq_ok [] 0 (fun _ _ => rfl) hdistinct
    rw [h] at htable
    cases htable
  · intro hrepeated
    cases h : labels [] 0 is with
    | error e => exact ⟨e, rfl⟩
    | ok table => exact absurd (labels_distinct h).1 hrepeated

/-- Exactly the labels of a program are found, each with an index up to its size. -/
theorem labels_lookup_eq_none (h : labels [] 0 is = .ok table) {name : Text} :
    table.lookup name = none ↔ name ∉ labelNames is := by
  constructor
  · intro hnone hin
    obtain ⟨table', htable, hall⟩ := labels_eq_ok [] 0 (fun _ _ => rfl) (labels_distinct h).1
    rw [h] at htable
    cases htable
    obtain ⟨t, ht⟩ := hall name hin
    rw [hnone] at ht
    cases ht
  · intro hnotin
    refine Option.eq_none_iff_forall_not_mem.mpr fun t ht => hnotin ?_
    obtain hknown | ⟨k, hk, -⟩ := labelAt?_of_labels h ht
    · cases hknown
    · obtain ⟨hlt, hlabel, -⟩ := List.findIdx?_eq_some_iff_getElem.mp hk
      rw [Bool.and_eq_true, beq_iff_eq] at hlabel
      exact List.mem_map.mpr ⟨_, List.mem_filter.mpr ⟨List.getElem_mem hlt, hlabel.1⟩, hlabel.2⟩

theorem labels_lookup_le (h : labels [] 0 is = .ok table) {name : Text} {t : Nat}
    (ht : table.lookup name = some t) : t ≤ Instruction.size is := by
  obtain hknown | ⟨k, -, rfl⟩ := labelAt?_of_labels h ht
  · cases hknown
  · rw [Nat.zero_add]
    exact size_take_le is k

/-! ## Targets -/

/-- An index and a distance are added up in 64 bits. -/
theorem toInt_ofNat_add {t : Int64} (hn : n < 2 ^ 63) (ht : 0 ≤ t.toInt) :
    (Int64.ofNat n + t).toInt = if 2 ^ 63 ≤ n + t.toInt then n + t.toInt - 2 ^ 64 else n + t.toInt := by
  have hlt : t.toInt < 2 ^ 63 := t.toInt_lt
  rw [Int64.toInt_add, Int64.toInt_ofNat_of_lt hn, Int.bmod_def]
  split <;> split <;> omega

/-- The check of a relative jump with `m` instructions after it. -/
theorem outside_iff {t : Int64} (hsize : n + 1 + m = size) (hsmall : size < 2 ^ 63) :
    t < 0 ∨ Int64.ofNat size < Int64.ofNat (n + 1) + t ↔
      t.toInt < 0 ∨ m < t.toInt ∧ ¬ 2 ^ 63 ≤ n + 1 + t.toInt := by
  have hlt : t.toInt < 2 ^ 63 := t.toInt_lt
  rw [Int64.lt_iff_toInt_lt, Int64.lt_iff_toInt_lt, Int64.toInt_ofNat_of_lt hsmall]
  by_cases hneg : t.toInt < 0
  · exact ⟨fun _ => .inl hneg, fun _ => .inl hneg⟩
  · have hadd := toInt_ofNat_add (n := n + 1) (by omega) (Int.not_lt.mp hneg)
    have hzero : (0 : Int64).toInt = 0 := rfl
    rw [hadd, hzero]
    split <;> omega

/-- Whether an instruction is rejected can be seen from the labels and from what stands before and after it. -/
theorem resolve_fails (hlabels : labels [] 0 is = .ok table) (hsize : n + 1 + m = size) (hsmall : size < 2 ^ 63) :
    (∃ e, resolve table size n i = .error e) ↔ Astray (labelNames is) n m i := by
  have houtside := outside_iff (t := i.target) hsize hsmall
  constructor
  · rintro ⟨e, h⟩
    unfold resolve at h
    split at h
    · cases h
    · rename_i hmode
      split at h
      · rename_i hnone
        exact .unnamed hmode ((labels_lookup_eq_none hlabels).mp hnone)
      · cases h
    · rename_i hmode
      dsimp only at h
      split at h
      · rename_i hout
        rcases houtside.mp hout with hneg | ⟨hbeyond, hfits⟩
        · exact .backward hmode hneg
        · exact .beyond hmode hbeyond fun hwraps => hfits hwraps.2
      · cases h
    · cases h
    · cases h
  · have hrejected (hmode : i.mode = .relative)
        (hout : i.target.toInt < 0 ∨ m < i.target.toInt ∧ ¬ 2 ^ 63 ≤ n + 1 + i.target.toInt) :
        ∃ e, resolve table size n i = .error e := by
      rw [resolve, hmode]
      dsimp only
      rw [if_pos (houtside.mpr hout)]
      exact ⟨_, rfl⟩
    rintro (⟨hmode, hname⟩ | ⟨hmode, hneg⟩ | ⟨hmode, hbeyond, hwraps⟩)
    · rw [resolve, hmode]
      dsimp only
      rw [(labels_lookup_eq_none hlabels).mpr hname]
      exact ⟨_, rfl⟩
    · exact hrejected hmode (.inl hneg)
    · exact hrejected hmode (.inr ⟨hbeyond, fun hle => hwraps ⟨hmode, hle⟩⟩)

/-- A target that is let through lies in the linked program, unless adding it up left the range of targets. -/
theorem resolve_target (hlabels : labels [] 0 is = .ok table) (hsmall : Instruction.size is < 2 ^ 63)
    (hsize : n + 1 + m = Instruction.size is) (h : resolve table (Instruction.size is) n i = .ok j)
    (hmode : i.mode = .label ∨ i.mode = .relative) :
    (¬ Wraps n i → 0 ≤ j.target.toInt ∧ j.target.toInt ≤ Instruction.size is) ∧
      (Wraps n i → j.target.toInt = n + 1 + i.target.toInt - 2 ^ 64) := by
  rcases hmode with hmode | hmode
  · obtain ⟨t, ht, htarget⟩ := Image.resolve_label h hmode
    have hle := labels_lookup_le hlabels ht
    rw [htarget, Int64.toInt_ofNat_of_lt (by omega)]
    refine ⟨fun _ => by omega, fun hwraps => ?_⟩
    rw [Wraps, hmode] at hwraps
    cases hwraps.1
  · have hinside : ¬ Astray (labelNames is) n m i := by
      rw [← resolve_fails hlabels hsize hsmall, h]
      rintro ⟨e, he⟩
      cases he
    have hpos : 0 ≤ i.target.toInt := Int.not_lt.mp fun hneg => hinside (.backward hmode hneg)
    rw [(Image.resolve_relative h hmode).1, toInt_ofNat_add (by omega) hpos]
    have hwraps : Wraps n i ↔ 2 ^ 63 ≤ ((n + 1 : Nat) : Int) + i.target.toInt := and_iff_right hmode
    refine ⟨fun hfits => ?_, fun hfar => ?_⟩
    · have hle : i.target.toInt ≤ m := Int.not_lt.mp fun hbeyond => hinside (.beyond hmode hbeyond hfits)
      rw [if_neg (hwraps.not.mp hfits)]
      omega
    · rw [if_pos (hwraps.mp hfar)]
      rfl

/-! ## All instructions -/

/-- Some instructions are rejected if one of them is. -/
theorem resolveAll_fails : (∃ e, resolveAll table size n is = .error e) ↔ ∃ before i after,
    is = before ++ i :: after ∧ i.isLabel = false ∧
      ∃ e, resolve table size (n + Instruction.size before) i = .error e := by
  constructor
  · intro h
    induction is generalizing n with
    | nil =>
      obtain ⟨e, he⟩ := h
      cases he
    | cons i is ih =>
      rw [resolveAll] at h
      cases hi : i.isLabel with
      | true =>
        rw [if_pos hi] at h
        obtain ⟨before, j, after, rfl, hj, hfails⟩ := ih h
        exact ⟨i :: before, j, after, rfl, hj, by rwa [Image.size_cons_label hi]⟩
      | false =>
        rw [if_neg (by simp [hi])] at h
        cases hlinked : resolve table size n i with
        | error e => exact ⟨[], i, is, rfl, hi, e, hlinked⟩
        | ok i' =>
          rw [hlinked] at h
          cases hrest : resolveAll table size (n + 1) is with
          | error e =>
            obtain ⟨before, j, after, rfl, hj, hfails⟩ := ih ⟨e, hrest⟩
            refine ⟨i :: before, j, after, rfl, hj, ?_⟩
            rwa [Image.size_cons hi, Nat.add_comm _ 1, ← Nat.add_assoc]
          | ok rest =>
            rw [hrest] at h
            obtain ⟨e, he⟩ := h
            cases he
  · rintro ⟨before, i, after, rfl, hi, e, hfails⟩
    cases h : resolveAll table size n (before ++ i :: after) with
    | error e => exact ⟨e, rfl⟩
    | ok is' =>
      have hget : (before ++ i :: after)[before.length]? = some i := by simp
      obtain ⟨i', -, hi'⟩ := resolveAll_get h hget hi
      rw [List.take_left, hfails] at hi'
      cases hi'

/-- A program is rejected if two of its labels have one name, or for the sake of one instruction. Otherwise what was
given by a label or by a distance becomes an index within the linked program, and that program is linked for good. A
jump so far past the end that adding it up leaves the range of targets is let through, to a negative index. -/
theorem link_rejects (p : Program) (hlinked : p.linked = false) (hsmall : p.instructions.length < 2 ^ 63) :
    ((∃ fault, p.link = .error fault) ↔ ¬ (labelNames p.instructions).Nodup ∨ ∃ before i after,
      p.instructions = before ++ i :: after ∧ i.isLabel = false ∧
        Astray (labelNames p.instructions) (Instruction.size before) (Instruction.size after) i) ∧
    ∀ q, p.link = .ok q → q.link = .ok q ∧ ∀ before i after, p.instructions = before ++ i :: after →
      i.isLabel = false → i.mode = .label ∨ i.mode = .relative →
        ∃ j, q.instructions[Instruction.size before]? = some j ∧
          (¬ Wraps (Instruction.size before) i →
            0 ≤ j.target.toInt ∧ j.target.toInt ≤ q.instructions.length) ∧
          (Wraps (Instruction.size before) i →
            j.target.toInt = Instruction.size before + 1 + i.target.toInt - 2 ^ 64) := by
  have hsize : Instruction.size p.instructions < 2 ^ 63 := Nat.lt_of_le_of_lt List.countP_le_length hsmall
  have hsplit {before after : List Instruction} {i : Instruction} (h : p.instructions = before ++ i :: after)
      (hi : i.isLabel = false) :
      Instruction.size before + 1 + Instruction.size after = Instruction.size p.instructions := by
    rw [h, Image.size_append, Image.size_cons hi]
    omega
  constructor
  · cases hlabels : labels [] 0 p.instructions with
    | error e =>
      refine iff_of_true ?_ (.inl (labels_fails.mp ⟨e, hlabels⟩))
      rw [link, hlinked, if_neg (by simp), hlabels]
      exact ⟨_, rfl⟩
    | ok table =>
      have hfails : (∃ fault, p.link = .error fault) ↔
          ∃ e, resolveAll table (Instruction.size p.instructions) 0 p.instructions = .error e := by
        rw [link, hlinked, if_neg (by simp), hlabels]
        dsimp only
        cases resolveAll table (Instruction.size p.instructions) 0 p.instructions <;> simp
      rw [hfails, resolveAll_fails, or_iff_right (not_not.mpr (labels_distinct hlabels).1)]
      refine exists_congr fun before => exists_congr fun i => exists_congr fun after => ?_
      refine and_congr_right fun h => and_congr_right fun hi => ?_
      rw [Nat.zero_add, resolve_fails hlabels (hsplit h hi) hsize]
  · intro q hq
    obtain ⟨table, hlink⟩ := linked_of_link hlinked hq
    refine ⟨by rw [link, hlink.linked, if_pos rfl], fun before i after h hi hmode => ?_⟩
    have hget : p.instructions[before.length]? = some i := by simp [h]
    obtain ⟨j, hj, hresolved⟩ := resolveAll_get hlink.resolved hget hi
    have htake : p.instructions.take before.length = before := by rw [h, List.take_left]
    rw [htake] at hj hresolved
    rw [Nat.zero_add] at hresolved
    rw [Image.resolveAll_length hlink.resolved]
    exact ⟨j, hj, resolve_target hlink.labels hsize (hsplit h hi) hresolved hmode⟩

/-- A jump as far as a target can say, with nothing after it. -/
theorem link_rejects_far_jump :
    let i : Instruction := { op := .jump, mode := .relative, target := Int64.maxValue }
    let p : Program := { instructions := [i] }
    (p.linked = false ∧ p.instructions.length < 2 ^ 63) ∧ ∃ q, p.link = .ok q ∧ q.link = .ok q ∧
      ∃ j, q.instructions[0]? = some j ∧ j.target.toInt = - 2 ^ 63 := by
  intro i p
  have hsmall : p.instructions.length < 2 ^ 63 := by decide
  obtain ⟨q, hq⟩ : ∃ q, p.link = .ok q := ⟨_, rfl⟩
  obtain ⟨hagain, htargets⟩ := (link_rejects p rfl hsmall).2 q hq
  obtain ⟨j, hj, -, htarget⟩ := htargets [] i [] rfl rfl (.inr rfl)
  exact ⟨⟨rfl, hsmall⟩, q, hq, hagain, j, hj, htarget ⟨rfl, by decide⟩⟩

end Bareword.Program
