import Bareword.Expr.Compile
import Bareword.Proofs.Machine.Instructions

/-! # Code in a linked program

Where the instructions of an unlinked program stand after linking. Labels take no room: they are
names for the instruction that follows.

* `Image`: a linked program with the table of its labels.
* `Image.Loaded`: some unlinked instructions stand in an image from an index on.
* `Image.Placed`: code that is still to be numbered stands there, and so do its function bodies;
  `Image.placed_compile` says it of the main part of a compiled program.
* `Machine.Built`: the machine of a program, in whose image all its instructions stand.
-/

namespace Bareword
set_option autoImplicit false
open Program (resolve resolveAll labels)

/-- A linked program with the indices of its labels and its number of instructions. -/
structure Image where
  code : Machine.Code
  table : List (Text × Nat)
  size : Nat

namespace Image

/-- An instruction stands at an index in its linked form, with the value that it pushes. -/
structure Stands (im : Image) (n : Nat) (i : Instruction) where
  linked : Instruction
  resolved : resolve im.table im.size n i = .ok linked
  holds : im.code.Holds n linked
  constant : i.op = .push → ∃ v, Value.ofLiteral i.value = .ok v ∧ im.code.constants[n]? = some v

/-- The instructions stand in the image from index `n` on. -/
def Loaded (im : Image) : Nat → List Instruction → Prop
  | _, [] => True
  | n, i :: rest =>
    if i.isLabel then im.table.lookup i.name = some n ∧ im.Loaded n rest
    else Nonempty (im.Stands n i) ∧ im.Loaded (n + 1) rest

theorem size_cons_label {i : Instruction} (h : i.isLabel = true) (is : List Instruction) :
    Instruction.size (i :: is) = Instruction.size is := by
  rw [Instruction.size, List.countP_cons_of_neg (by simp [h])]
  rfl

theorem size_cons {i : Instruction} (h : i.isLabel = false) (is : List Instruction) :
    Instruction.size (i :: is) = Instruction.size is + 1 := by
  rw [Instruction.size, List.countP_cons_of_pos (by simp [h])]
  rfl

@[simp] theorem size_nil : Instruction.size [] = 0 := rfl

@[simp] theorem size_append (is js : List Instruction) :
    Instruction.size (is ++ js) = Instruction.size is + Instruction.size js :=
  List.countP_append

theorem size_singleton {i : Instruction} (h : i.isLabel = false) : Instruction.size [i] = 1 :=
  size_cons h []

theorem loaded_append (im : Image) (n : Nat) (is js : List Instruction) :
    im.Loaded n (is ++ js) ↔ im.Loaded n is ∧ im.Loaded (n + Instruction.size is) js := by
  induction is generalizing n with
  | nil => simp [Loaded]
  | cons i is ih =>
    rw [List.cons_append, Loaded, Loaded]
    cases hi : i.isLabel with
    | true =>
      rw [if_pos rfl, if_pos rfl, ih, size_cons_label hi, and_assoc]
    | false =>
      have hn : n + 1 + Instruction.size is = n + (Instruction.size is + 1) := by omega
      rw [if_neg (by simp), if_neg (by simp), ih, size_cons hi, and_assoc, hn]

theorem loaded_cons {im : Image} {n : Nat} {i : Instruction} {is : List Instruction}
    (h : i.isLabel = false) :
    im.Loaded n (i :: is) ↔ Nonempty (im.Stands n i) ∧ im.Loaded (n + 1) is := by
  rw [Loaded, if_neg (by simp [h])]

theorem loaded_singleton {im : Image} {n : Nat} {i : Instruction} (h : i.isLabel = false) :
    im.Loaded n [i] ↔ Nonempty (im.Stands n i) := by
  rw [loaded_cons h]
  simp [Loaded]

/-! ## Numbers in names -/

end Image

theorem Text.ofNat_injective : Function.Injective Text.ofNat := by
  -- The digits can be read back from their bytes.
  have hback : ∀ n, (Text.ofNat n).map (fun b => Char.ofNat b.toNat) = Nat.toDigits 10 n := by
    intro n
    rw [Text.ofNat, List.map_map, List.map_congr_left (g := id), List.map_id]
    intro c hc
    have hdigit := Nat.isDigit_of_mem_toDigits (by decide) (by decide) hc
    have hlt : c.toNat < 256 := by
      simp only [Char.isDigit, Bool.and_eq_true, decide_eq_true_eq] at hdigit
      have hle : c.val.toNat ≤ 57 := hdigit.2
      exact Nat.lt_of_le_of_lt hle (by decide)
    show Char.ofNat (Text.byte c).toNat = c
    rw [Text.byte, UInt8.toNat_ofNat', Nat.mod_eq_of_lt hlt, Char.ofNat_toNat]
  intro m n h
  rw [← Nat.ofDigitChars_ten_toDigits (n := m), ← Nat.ofDigitChars_ten_toDigits (n := n), ← hback, h,
    hback]

theorem Gen.temporary_injective : Function.Injective Gen.temporary := fun _ _ h =>
  Text.ofNat_injective (List.append_cancel_left h)

theorem Gen.isTemporary_temporary (n : Nat) : Program.isTemporary (Gen.temporary n) = true := by
  rw [Program.isTemporary, List.isPrefixOf_iff_prefix]
  exact List.prefix_append _ _

namespace Image

/-! ## Linked forms -/

/-- Linking changes where an instruction leads to and nothing else. -/
structure Keeps (i i' : Instruction) : Prop where
  op : i'.op = i.op
  value : i'.value = i.value
  name : i'.name = i.name
  params : i'.params = i.params
  count : i'.count = i.count
  span : i'.span = i.span

theorem resolve_keeps {table : List (Text × Nat)} {size n : Nat} {i i' : Instruction}
    (h : resolve table size n i = .ok i') : Keeps i i' := by
  unfold resolve at h
  split at h
  · cases h
    exact ⟨rfl, rfl, rfl, rfl, rfl, rfl⟩
  · split at h
    · cases h
    · cases h
      exact ⟨rfl, rfl, rfl, rfl, rfl, rfl⟩
  · dsimp only at h
    split at h
    · cases h
    · cases h
      exact ⟨rfl, rfl, rfl, rfl, rfl, rfl⟩
  · cases h
    exact ⟨rfl, rfl, rfl, rfl, rfl, rfl⟩
  · cases h
    exact ⟨rfl, rfl, rfl, rfl, rfl, rfl⟩

theorem Stands.keeps {im : Image} {n : Nat} {i : Instruction} (s : im.Stands n i) :
    Keeps i s.linked := resolve_keeps s.resolved

theorem resolve_label {table : List (Text × Nat)} {size n : Nat} {i i' : Instruction}
    (h : resolve table size n i = .ok i') (hm : i.mode = .label) :
    ∃ t, table.lookup i.label = some t ∧ i'.target = Int64.ofNat t := by
  unfold resolve at h
  simp only [hm] at h
  split at h
  · cases h
  · rename_i t ht
    cases h
    exact ⟨t, ht, rfl⟩

theorem resolve_relative {table : List (Text × Nat)} {size n : Nat} {i i' : Instruction}
    (h : resolve table size n i = .ok i') (hm : i.mode = .relative) :
    i'.target = Int64.ofNat (n + 1) + i.target ∧
      ¬ Int64.ofNat size < Int64.ofNat (n + 1) + i.target := by
  unfold resolve at h
  simp only [hm] at h
  split at h
  · cases h
  · rename_i hinside
    cases h
    exact ⟨rfl, fun hlt => hinside (.inr hlt)⟩

theorem Stands.relative_target {im : Image} {n k : Nat} {i : Instruction} (s : im.Stands n i)
    (hm : i.mode = .relative) (ht : i.target = Int64.ofNat k) :
    s.linked.target = Int64.ofNat (n + 1 + k) := by
  rw [(resolve_relative s.resolved hm).1, ht, ← Int64.ofNat_add]

theorem Stands.label_target {im : Image} {n : Nat} {i : Instruction} (s : im.Stands n i)
    (hm : i.mode = .label) :
    ∃ t, im.table.lookup i.label = some t ∧ s.linked.target = Int64.ofNat t :=
  resolve_label s.resolved hm

/-! ## Numbered code -/

/-- The bodies stand in the image under their labels. -/
def Bodies (im : Image) (bodies : List Body) : Prop :=
  ∀ b ∈ bodies, ∃ q, im.table.lookup b.label = some q ∧ im.Loaded q b.code

/-- The code stands in the image from index `q` on when it is numbered from `c` on. -/
structure Placed (im : Image) (g : Gen) (c : Counters) (q : Nat) : Prop where
  loaded : im.Loaded q (g c).code
  bodies : im.Bodies (g c).bodies

end Image

namespace Gen

def size (g : Gen) (c : Counters) : Nat := Instruction.size (g c).code

theorem append_apply (g h : Gen) (c : Counters) :
    (g ++ h) c = ⟨(g c).code ++ (h (g c).next).code, (g c).bodies ++ (h (g c).next).bodies,
      (h (g c).next).next⟩ := rfl

theorem append_assoc (g h l : Gen) : g ++ h ++ l = g ++ (h ++ l) := by
  funext c
  rw [append_apply, append_apply, append_apply, append_apply]
  simp [List.append_assoc]

theorem size_append (g h : Gen) (c : Counters) :
    (g ++ h).size c = g.size c + h.size (g c).next :=
  Image.size_append _ _

theorem size_instr {i : Instruction} (hi : i.isLabel = false) (c : Counters) :
    (instr i).size c = 1 :=
  Image.size_singleton hi

theorem size_jumpOver {op : Opcode} (hop : op ≠ .label) (span : Span) (g : Gen) (c : Counters) :
    (jumpOver op span g).size c = g.size c + 1 :=
  Image.size_cons (by simpa [Instruction.isLabel] using hop) _

theorem size_function (span : Span) (params : List Text) (body : Gen) (c : Counters) :
    (function span params body).size c = 1 := rfl

end Gen

namespace Image

theorem placed_append {im : Image} {g h : Gen} {c : Counters} {q : Nat}
    (hp : im.Placed (g ++ h) c q) :
    im.Placed g c q ∧ im.Placed h (g c).next (q + g.size c) := by
  obtain ⟨hl, hb⟩ := hp
  have hl' := (im.loaded_append q _ _).mp hl
  refine ⟨⟨hl'.1, fun b hm => hb b (List.mem_append_left _ hm)⟩, ⟨hl'.2, ?_⟩⟩
  exact fun b hm => hb b (List.mem_append_right _ hm)

theorem placed_instr {im : Image} {i : Instruction} {c : Counters} {q : Nat}
    (hi : i.isLabel = false) (hp : im.Placed (.instr i) c q) : Nonempty (im.Stands q i) :=
  (loaded_singleton hi).mp hp.loaded

/-- The code after a jump over it, and where the jump leads to. -/
theorem placed_jumpOver {im : Image} {op : Opcode} {span : Span} {g : Gen} {c : Counters} {q : Nat}
    (hop : op ≠ .label) (hp : im.Placed (.jumpOver op span g) c q) :
    (∃ i, im.code.Holds q i ∧ i.op = op ∧ i.span = span ∧
      i.target = Int64.ofNat (q + 1 + g.size c)) ∧ im.Placed g c (q + 1) := by
  obtain ⟨hl, hb⟩ := hp
  have hl' := (loaded_cons (by simpa [Instruction.isLabel] using hop)).mp hl
  obtain ⟨⟨s⟩, hrest⟩ := hl'
  refine ⟨⟨s.linked, s.holds, s.keeps.op, s.keeps.span, ?_⟩, ⟨hrest, hb⟩⟩
  exact s.relative_target rfl rfl

/-- The making of a function leads to its body. -/
theorem placed_function {im : Image} {span : Span} {params : List Text} {body : Gen} {c : Counters}
    {q : Nat} (hp : im.Placed (.function span params body) c q) :
    ∃ i entry, im.code.Holds q i ∧ i.op = .makeFunction ∧ i.span = span ∧ i.params = params ∧
      i.target = Int64.ofNat entry ∧
      im.table.lookup (Gen.functionLabel c.functions) = some entry ∧
      im.Placed (body ++ .instr { op := .return, span }) { c with functions := c.functions + 1 }
        entry := by
  obtain ⟨hl, hb⟩ := hp
  obtain ⟨s⟩ := (loaded_singleton rfl).mp hl
  obtain ⟨t, ht, htarget⟩ := s.label_target rfl
  obtain ⟨q', hq', hcode⟩ := hb _ (List.mem_cons_self ..)
  have hqt : q' = t := by
    rw [hq'] at ht
    injection ht
  subst hqt
  refine ⟨s.linked, q', s.holds, s.keeps.op, s.keeps.span, s.keeps.params, htarget, hq',
    ⟨hcode, ?_⟩⟩
  intro b hm
  have hm' : b ∈ (body { c with functions := c.functions + 1 }).bodies := by
    rw [Gen.append_apply] at hm
    exact (List.mem_append.mp hm).resolve_right List.not_mem_nil
  exact hb b (List.mem_cons_of_mem _ hm')

/-! ## Where the code of a program stands -/

theorem bodies_of_loaded {im : Image} {bs : List Body} {q : Nat}
    (h : im.Loaded q (bs.flatMap Expr.placed)) : im.Bodies bs := by
  induction bs generalizing q with
  | nil => exact List.forall_mem_nil _
  | cons b bs ih =>
    have hlabel : ({ op := .label, name := b.label } : Instruction).isLabel = true := rfl
    rw [List.flatMap_cons, Expr.placed, List.cons_append, Image.Loaded, if_pos hlabel] at h
    obtain ⟨hlabel, hcode⟩ := h
    obtain ⟨hbody, hrest⟩ := (im.loaded_append q _ _).mp hcode
    exact List.forall_mem_cons.mpr ⟨⟨q, hlabel, hbody⟩, ih hrest⟩

/-- The main part of a compiled program stands at the start of its image. -/
theorem placed_compile {im : Image} {source filename : Text} {es : List Expr}
    (h : im.Loaded 0 (Expr.compile source filename es).instructions) :
    im.Placed (Expr.genStatements .zero es ++ .instr { op := .halt }) {} 0 := by
  obtain ⟨hcode, hbodies⟩ := (im.loaded_append 0 _ _).mp h
  exact ⟨hcode, bodies_of_loaded hbodies⟩

/-! ## Images of machines -/

theorem labels_known {known table : List (Text × Nat)} {n : Nat} {is : List Instruction}
    (h : labels known n is = .ok table) {name : Text} {k : Nat} (hk : known.lookup name = some k) :
    table.lookup name = some k := by
  induction is generalizing known n with
  | nil =>
    rw [labels] at h
    cases h
    exact hk
  | cons i is ih =>
    rw [labels] at h
    split at h
    · split at h
      · cases h
      · rename_i hnew
        refine ih h ?_
        have hne : (name == i.name) = false := by
          refine beq_false_of_ne fun heq => hnew ?_
          rw [← heq, hk]
          rfl
        rw [List.lookup_cons, hne]
        exact hk
    · exact ih h hk

theorem resolveAll_length {table : List (Text × Nat)} {size n : Nat} {is is' : List Instruction}
    (h : resolveAll table size n is = .ok is') : is'.length = Instruction.size is := by
  induction is generalizing n is' with
  | nil =>
    rw [resolveAll] at h
    cases h
    rfl
  | cons i is ih =>
    rw [resolveAll] at h
    cases hi : i.isLabel with
    | true =>
      rw [if_pos hi] at h
      rw [size_cons_label hi]
      exact ih h
    | false =>
      rw [if_neg (by simp [hi])] at h
      rw [size_cons hi]
      split at h
      · cases h
      · split at h
        · cases h
        · rename_i hrest
          cases h
          rw [List.length_cons, ih hrest]

/-- Every linked instruction is the linked form of one of the program. -/
theorem mem_resolveAll {table : List (Text × Nat)} {size n : Nat} {is is' : List Instruction}
    {i' : Instruction} (h : resolveAll table size n is = .ok is') (hi : i' ∈ is') :
    ∃ i ∈ is, Keeps i i' := by
  induction is generalizing n is' with
  | nil =>
    rw [resolveAll] at h
    cases h
    cases hi
  | cons i is ih =>
    rw [resolveAll] at h
    split at h
    · obtain ⟨j, hj, hkeeps⟩ := ih h hi
      exact ⟨j, List.mem_cons_of_mem _ hj, hkeeps⟩
    · split at h
      · cases h
      · rename_i j hj
        split at h
        · cases h
        · rename_i rest hrest
          cases h
          rcases List.mem_cons.mp hi with rfl | hi
          · exact ⟨i, List.mem_cons_self .., resolve_keeps hj⟩
          · obtain ⟨l, hl, hkeeps⟩ := ih hrest hi
            exact ⟨l, List.mem_cons_of_mem _ hl, hkeeps⟩

theorem constants_get {n k : Nat} {is : List Instruction} {values : List Value} {i : Instruction}
    (h : Machine.constants n is = .ok values) (hi : is[k]? = some i) (hop : i.op = .push) :
    ∃ v, Value.ofLiteral i.value = .ok v ∧ values[k]? = some v := by
  induction is generalizing n k values with
  | nil => cases hi
  | cons j is ih =>
    rw [Machine.constants] at h
    split at h
    · cases h
    · rename_i v hv
      cases hrest : Machine.constants (n + 1) is with
      | error e =>
        rw [hrest] at h
        cases h
      | ok rest =>
        rw [hrest] at h
        cases h
        cases k with
        | zero =>
          cases hi
          rw [if_pos hop] at hv
          exact ⟨v, hv, rfl⟩
        | succ k =>
          rw [List.getElem?_cons_succ] at hi
          obtain ⟨w, hw, hget⟩ := ih hrest hi
          exact ⟨w, hw, hget⟩

theorem constants_eq_ok {n : Nat} {is : List Instruction}
    (h : ∀ i ∈ is, i.op = .push → ∃ v, Value.ofLiteral i.value = .ok v) :
    ∃ values, Machine.constants n is = .ok values := by
  induction is generalizing n with
  | nil => exact ⟨[], rfl⟩
  | cons i is ih =>
    obtain ⟨hi, his⟩ := List.forall_mem_cons.mp h
    obtain ⟨values, hvalues⟩ := ih (n := n + 1) his
    have hvalue : ∃ v, (if i.op = .push then Value.ofLiteral i.value else .ok .hole) = .ok v := by
      split
      · exact hi ‹_›
      · exact ⟨_, rfl⟩
    obtain ⟨v, hv⟩ := hvalue
    rw [Machine.constants, hv, hvalues]
    exact ⟨_, rfl⟩

/-- The linked form of some instructions, placed after others, is an image of them. -/
theorem loaded_of_resolveAll {im : Image} {known : List (Text × Nat)} {is before after : List Instruction}
    (hlabels : labels known before.length is = .ok im.table)
    {is' : List Instruction} (h : resolveAll im.table im.size before.length is = .ok is')
    (hcode : im.code.instructions.toList = before ++ is' ++ after)
    (hsmall : im.code.instructions.size < 2 ^ 63)
    (hconst : ∀ (k : Nat) (i : Instruction), im.code.instructions[k]? = some i → i.op = .push →
      ∃ v, Value.ofLiteral i.value = .ok v ∧ im.code.constants[k]? = some v) :
    im.Loaded before.length is := by
  induction is generalizing known before is' with
  | nil => trivial
  | cons i is ih =>
    rw [labels] at hlabels
    rw [resolveAll] at h
    rw [Loaded]
    cases hi : i.isLabel with
    | true =>
      rw [if_pos hi] at h hlabels
      rw [if_pos rfl]
      split at hlabels
      · cases hlabels
      · exact ⟨labels_known hlabels (by simp), ih hlabels h hcode⟩
    | false =>
      rw [if_neg (by simp [hi])] at h hlabels
      rw [if_neg (by simp)]
      split at h
      · cases h
      · rename_i i' hi'
        split at h
        · cases h
        · rename_i rest hrest
          cases h
          have hfetch : im.code.instructions[before.length]? = some i' := by
            rw [← Array.getElem?_toList, hcode, List.append_assoc,
              List.getElem?_append_right (Nat.le_refl _), Nat.sub_self]
            rfl
          have hkeeps := resolve_keeps hi'
          refine ⟨⟨⟨i', hi', ⟨hsmall, hfetch⟩, fun hop => ?_⟩⟩, ?_⟩
          · rw [← hkeeps.value]
            exact hconst _ _ hfetch (hkeeps.op.trans hop)
          · have hlen : (before ++ [i']).length = before.length + 1 := by simp
            rw [← hlen] at hlabels hrest ⊢
            exact ih hlabels hrest (by rw [hcode]; simp)

end Image

/-- What the machine of a program that is not linked is made of. -/
structure Machine.Built (vars : List (Text × Value)) (p : Program) (m : Machine) (im : Image) :
    Prop where
  code : im.code = m.code
  loaded : im.Loaded 0 p.instructions
  size : im.code.instructions.size = Instruction.size p.instructions
  keeps : ∀ i' ∈ im.code.instructions, ∃ i ∈ p.instructions, Image.Keeps i i'
  instructions : m.program.instructions = m.code.instructions.toList
  source : m.program.source = p.source
  filename : m.program.filename = p.filename
  store : m.store = #[{ vars := vars.foldl (fun vars (n, v) => Store.assign n v vars) [] }]
  stack : m.stack = {}
  made : m.made = 0
  isRunning : m.isRunning = false

/-- What linking does to a program that is not linked. -/
theorem Program.link_eq_ok {p q : Program} (hp : p.linked = false) (h : p.link = .ok q) :
    ∃ table is, labels [] 0 p.instructions = .ok table ∧
      resolveAll table (Instruction.size p.instructions) 0 p.instructions = .ok is ∧
      q = { p with instructions := is, linked := true } := by
  rw [Program.link, hp, if_neg (by simp)] at h
  cases htable : labels [] 0 p.instructions with
  | error e =>
    rw [htable] at h
    cases h
  | ok table =>
    rw [htable] at h
    dsimp only at h
    cases hres : resolveAll table (Instruction.size p.instructions) 0 p.instructions with
    | error e =>
      rw [hres] at h
      cases h
    | ok is =>
      rw [hres] at h
      cases h
      exact ⟨table, is, rfl, hres, rfl⟩

/-- A machine is made of the linked program and the values that it pushes. -/
theorem Machine.ofProgram_eq_ok {vars : List (Text × Value)} {p : Program} {m : Machine}
    (h : Machine.ofProgram vars p = .ok m) :
    ∃ q values, p.link = .ok q ∧ Machine.constants 0 q.instructions = .ok values ∧
      m = { program := q, code := ⟨q.instructions.toArray, values.toArray⟩
            store := #[{ vars := vars.foldl (fun vars (n, v) => Store.assign n v vars) [] }] } := by
  rw [Machine.ofProgram] at h
  split at h
  · cases h
  · rename_i q hlink
    split at h
    · cases h
    · rename_i values hvalues
      cases h
      exact ⟨q, values, hlink, hvalues, rfl⟩

theorem Machine.built_of_ofProgram {vars : List (Text × Value)} {p : Program} {m : Machine}
    (hlinked : p.linked = false) (hsmall : p.instructions.length < 2 ^ 63)
    (h : Machine.ofProgram vars p = .ok m) : ∃ im : Image, Machine.Built vars p m im := by
  obtain ⟨q, values, hlink, hvalues, rfl⟩ := Machine.ofProgram_eq_ok h
  obtain ⟨table, is, htable, hres, rfl⟩ := Program.link_eq_ok hlinked hlink
  have hlen : is.length = Instruction.size p.instructions := Image.resolveAll_length hres
  have hle : Instruction.size p.instructions ≤ p.instructions.length := List.countP_le_length
  let im : Image := ⟨⟨is.toArray, values.toArray⟩, table, Instruction.size p.instructions⟩
  have hcode : im.code.instructions.toList = [] ++ is ++ [] := by simp [im]
  refine ⟨im, rfl, ?_, ?_, ?_, by simp, rfl, rfl, rfl, rfl, rfl, rfl⟩
  · refine Image.loaded_of_resolveAll htable hres hcode ?_ ?_
    · show is.toArray.size < 2 ^ 63
      rw [List.size_toArray]
      omega
    · intro k i hk hop
      change is.toArray[k]? = some i at hk
      show ∃ v, _ ∧ values.toArray[k]? = some v
      rw [List.getElem?_toArray] at hk ⊢
      exact Image.constants_get hvalues hk hop
  · show is.toArray.size = _
    rw [List.size_toArray, hlen]
  · intro i' hi'
    exact Image.mem_resolveAll hres (List.mem_toArray.mp hi')

end Bareword
