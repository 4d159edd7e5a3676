import Bareword.Proofs.Program.Storing
import Bareword.Proofs.Expr.Sound
import Bareword.Script

/-! # Compiled programs are stored and read back

A compiled program is made of operations that have a mnemonic, and only its pushes hold a literal.
What of it does not survive being stored is therefore the sign of a zero, and nothing else.

* `Instruction.Written`: what holds of every instruction that is generated.
* `Expr.written`: the code of a sound expression is made of such instructions.
* `Script.saving_keeps_program`: when a compiled program comes back as it was.
-/

namespace Bareword
set_option autoImplicit false

/-- An instruction as code generation writes it: only a push holds a literal. -/
structure Instruction.Written (i : Instruction) : Prop extends i.Canonical where
  value : i.op ≠ .push → i.value = {}

/-- Whatever numbers the code gets, it and its bodies are made of such instructions. -/
def Gen.Writes (g : Gen) : Prop :=
  ∀ c, (∀ i ∈ (g c).code, i.Written) ∧ ∀ b ∈ (g c).bodies, ∀ i ∈ b.code, i.Written

namespace Gen.Writes

variable {g h : Gen}

theorem nil : Gen.nil.Writes := fun _ => by simp [Gen.nil]

theorem instr {i : Instruction} (hi : i.Written) : (Gen.instr i).Writes := fun _ => by
  simpa [Gen.instr] using hi

theorem append (hg : g.Writes) (hh : h.Writes) : (g ++ h).Writes := by
  intro c
  obtain ⟨hcode, hbodies⟩ := hg c
  obtain ⟨hcode', hbodies'⟩ := hh (g c).next
  exact ⟨fun i hi => (List.mem_append.mp hi).elim (hcode i) (hcode' i),
    fun b hb => (List.mem_append.mp hb).elim (hbodies b) (hbodies' b)⟩

theorem jumpOver {op : Opcode} {span : Span} (hop : op.mnemonic?.isSome) (hg : g.Writes) :
    (Gen.jumpOver op span g).Writes := by
  intro c
  refine ⟨fun i hi => ?_, (hg c).2⟩
  rcases List.mem_cons.mp hi with rfl | hi
  · exact ⟨⟨hop, rfl, rfl⟩, fun _ => rfl⟩
  · exact (hg c).1 i hi

theorem withEnd {g : Text → Gen} (hg : ∀ label, (g label).Writes) : (Gen.withEnd g).Writes :=
  fun _ => hg _ _

theorem withTemporary {g : Text → Gen} (hg : ∀ name, (g name).Writes) :
    (Gen.withTemporary g).Writes :=
  fun _ => hg _ _

theorem function {span : Span} {params : List Text} (hg : g.Writes) :
    (Gen.function span params g).Writes := by
  intro c
  refine ⟨fun i hi => ?_, fun b hb => ?_⟩
  · obtain rfl := List.mem_singleton.mp hi
    exact ⟨⟨rfl, rfl, rfl⟩, fun _ => rfl⟩
  · rcases List.mem_cons.mp hb with rfl | hb
    · intro i hi
      rcases List.mem_append.mp hi with hi | hi
      · exact (hg _).1 i hi
      · obtain rfl := List.mem_singleton.mp hi
        exact ⟨⟨rfl, rfl, rfl⟩, fun _ => rfl⟩
    · exact (hg _).2 b hb

theorem plain {i : Instruction} (hop : i.op.mnemonic?.isSome) (hmode : TargetMode.ofCode i.mode.code = i.mode)
    (hvalue : i.value = {}) : (Gen.instr i).Writes :=
  instr ⟨⟨hop, by rw [hvalue]; rfl, hmode⟩, fun _ => hvalue⟩

theorem load (span : Span) (name : Text) : (Gen.load span name).Writes := plain rfl rfl rfl

theorem push {span : Span} {value : Literal}
    (h : LiteralKind.ofCode value.kind.code = value.kind) : (Gen.push span value).Writes :=
  instr ⟨⟨rfl, h, rfl⟩, fun hne => absurd rfl hne⟩

end Gen.Writes

theorem kind_canonical {l : Literal} {v : Value} (h : Value.ofLiteral l = .ok v) :
    LiteralKind.ofCode l.kind.code = l.kind := by
  unfold Value.ofLiteral at h
  split at h
  case h_6 => cases h
  all_goals rename_i heq; rw [heq]; rfl

section Expressions
open Gen (Writes)

mutual

theorem Expr.written : (e : Expr) → e.Sound → e.gen.Writes
  | .literal _ _, ⟨_, hv⟩ => .push (kind_canonical hv)
  | .name _ _, _ => .load _ _
  | .field _ _ _, _ => .append (.load _ _) (.plain rfl rfl rfl)
  | .bare _ _, _ => .plain rfl rfl rfl
  | .concat _ parts, h => .append (Expr.written_parts parts h) (.plain rfl rfl rfl)
  | .binary _ op left right, ⟨⟨_, hop⟩, hl, hr⟩ =>
    .append (.append (left.written hl) (right.written hr))
      (.plain (by cases op <;> first | rfl | cases hop) rfl rfl)
  | .shortCircuit _ stopOn left right, ⟨hl, hr⟩ =>
    .append (.append (left.written hl) (.plain rfl rfl rfl))
      (.jumpOver (by cases stopOn <;> rfl) (.append (.plain rfl rfl rfl) (right.written hr)))
  | .assign _ _ value, h => .append (value.written h) (.plain rfl rfl rfl)
  | .pipe span first stages, ⟨hf, hs⟩ =>
    .append (first.written hf) (.withTemporary fun temporary =>
      Expr.written_stages span temporary stages hs)
  | .function _ _ [], _ => .function (.push rfl)
  | .function span _ (first :: rest), h =>
    .function (.append (first.written h.1) (Expr.written_rest span rest h.2))
  | .call call, h => call.written call.span none h
  | .choose span branches otherwise, ⟨hb, ho⟩ =>
    .withEnd fun label =>
      .append (.append (Expr.written_branches span label branches hb) (otherwise.written ho))
        (.plain rfl rfl rfl)
  | .block _ [], _ => .push rfl
  | .block span (first :: rest), h =>
    .append (first.written h.1) (Expr.written_rest span rest h.2)

theorem Expr.written_parts : (es : List Expr) → Expr.AllSound es → (Expr.genParts es).Writes
  | [], _ => .nil
  | e :: es, h => .append (e.written h.1) (Expr.written_parts es h.2)

theorem Expr.written_rest (span : Span) : (es : List Expr) → Expr.AllSound es →
    (Expr.genRest span es).Writes
  | [], _ => .nil
  | e :: es, h =>
    .append (.append (.plain rfl rfl rfl) (e.written h.1)) (Expr.written_rest span es h.2)

theorem Expr.written_stages (span : Span) (temporary : Text) : (stages : List Call) →
    Call.AllSound stages → (Expr.genStages span temporary stages).Writes
  | [], _ => .nil
  | stage :: stages, h =>
    .append (.append (.append (.plain rfl rfl rfl) (.plain rfl rfl rfl))
      (stage.written span (some temporary) h.1)) (Expr.written_stages span temporary stages h.2)

theorem Expr.written_branches (span : Span) (label : Text) : (branches : List Branch) →
    Branch.AllSound branches → (Expr.genBranches span label branches).Writes
  | [], _ => .nil
  | .mk condition block :: branches, ⟨hc, hb, hrest⟩ =>
    .append (.append (condition.written hc)
      (.jumpOver rfl (.append (block.written hb) (.plain rfl rfl rfl))))
      (Expr.written_branches span label branches hrest)

theorem Call.written (around : Span) (piped : Option Text) : (c : Call) → c.Sound →
    (c.gen around piped).Writes
  | .mk span callee positional named, ⟨hp, hn⟩ => by
    have hpositional := Arg.written_all (piped.getD []) positional hp
    have hnamed := NamedArg.written_all around (piped.getD []) named hn
    unfold Call.gen
    dsimp only
    refine .append (.append (.append (.append (.append (.append (.load _ _) ?_) hpositional)
      hnamed) (.push rfl)) (.push rfl)) (.plain rfl rfl rfl)
    split
    · exact .load _ _
    · exact .nil

theorem Arg.written (temporary : Text) : (a : Arg) → a.Sound → (a.gen temporary).Writes
  | .value e, h => e.written h
  | .piped _, _ => .load _ _

theorem Arg.written_all (temporary : Text) : (as : List Arg) → Arg.AllSound as →
    (Arg.genAll temporary as).Writes
  | [], _ => .nil
  | a :: as, h => .append (a.written temporary h.1) (Arg.written_all temporary as h.2)

theorem NamedArg.written_all (around : Span) (temporary : Text) : (ns : List NamedArg) →
    NamedArg.AllSound ns → (NamedArg.genAll around temporary ns).Writes
  | [], _ => .nil
  | .mk _ arg :: ns, h =>
    .append (.append (.push rfl) (arg.written temporary h.1))
      (NamedArg.written_all around temporary ns h.2)

end

end Expressions

theorem Expr.written_statements (span : Span) (es : List Expr) (h : Expr.AllSound es) :
    (Expr.genStatements span es).Writes :=
  match es, h with
  | [], _ => .push rfl
  | e :: es, h => .append (e.written h.1) (Expr.written_rest span es h.2)

/-- Every instruction of a compiled program is written by code generation. -/
theorem Expr.written_compile {es : List Expr} (h : Expr.AllSound es) (source filename : Text) :
    ∀ i ∈ (Expr.compile source filename es).instructions, i.Written := by
  have hwrites : (Expr.genStatements .zero es ++ Gen.instr { op := .halt }).Writes :=
    .append (Expr.written_statements .zero es h) (.plain rfl rfl rfl)
  obtain ⟨hcode, hbodies⟩ := hwrites {}
  intro i hi
  rcases List.mem_append.mp hi with hi | hi
  · exact hcode i hi
  · obtain ⟨b, hb, hi⟩ := List.mem_flatMap.mp hi
    rcases List.mem_cons.mp hi with rfl | hi
    · exact ⟨⟨rfl, rfl, rfl⟩, fun _ => rfl⟩
    · exact hbodies b hb i hi

/-! ## What comes back -/

theorem neg_zero_beq : ((-0 : Float) == 0) = true := by decide +kernel

theorem neg_zero_ne : (0 : Float) ≠ -0 := fun h =>
  absurd (Float.toBits_inj.mpr h) (by decide +kernel)

/-- A literal comes back as it was unless it holds a negative zero. -/
theorem Literal.stored_eq_self (l : Literal) : l.stored = l ↔ l.number ≠ -0 := by
  have hiff : l.stored = l ↔ (if l.number == 0 then 0 else l.number) = l.number := by
    obtain ⟨kind, flag, number, text, flags⟩ := l
    simp [Literal.stored]
  rw [hiff]
  by_cases h : l.number == 0
  · rw [if_pos h]
    constructor
    · intro heq hneg
      exact neg_zero_ne (heq.trans hneg)
    · intro hneg
      obtain ⟨-, -, heq | ⟨heq, -⟩ | ⟨heq, -⟩⟩ := Float.beq_iff_ne_nan_and_eq.mp h
      · exact heq.symm
      · exact heq.symm
      · exact absurd heq hneg
  · rw [if_neg h]
    refine iff_of_true rfl fun hneg => h ?_
    rw [hneg]
    exact neg_zero_beq

theorem Instruction.Written.stored_eq_self {i : Instruction} (h : i.Written) :
    i.stored = i ↔ (i.op = .push → i.value.number ≠ -0) := by
  have hiff : i.stored = i ↔ (if i.op = .push then i.value.stored else {}) = i.value := by
    obtain ⟨op, value, name, params, label, mode, target, count, span⟩ := i
    simp [Instruction.stored]
  rw [hiff]
  by_cases hpush : i.op = .push
  · rw [if_pos hpush, Literal.stored_eq_self]
    exact ⟨fun hne _ => hne, fun hne => hne hpush⟩
  · rw [if_neg hpush]
    exact iff_of_true (h.value hpush).symm fun hop => absurd hop hpush

theorem Program.stored_eq_self {p : Program} (h : ∀ i ∈ p.instructions, i.Written) :
    p.stored = p ↔ ∀ i ∈ p.instructions, i.op = .push → i.value.number ≠ -0 := by
  have hiff : p.stored = p ↔ ∀ i ∈ p.instructions, i.stored = i := by
    constructor
    · intro heq i hi
      have hmap : p.instructions.map Instruction.stored = p.instructions.map id := by
        rw [List.map_id]
        exact congrArg Program.instructions heq
      exact List.map_inj_left.mp hmap i hi
    · intro heq
      have hmap : p.instructions.map Instruction.stored = p.instructions := by
        rw [List.map_congr_left heq, List.map_id']
      rw [Program.stored, hmap]
  rw [hiff]
  exact forall₂_congr fun i hi => (h i hi).stored_eq_self

theorem Script.written_of_compile {s : Script} {p : Program} (h : s.compile = .ok p) :
    ∀ i ∈ p.instructions, i.Written := by
  unfold Script.compile at h
  dsimp only at h
  split at h
  · cases h
  · obtain ⟨es, hes, rfl⟩ := Program.ofTree_eq_ok h
    exact Expr.written_compile (Expr.allSound_of_ofProgram hes) _ _

/-- A compiled program that fits comes back from its bytes, and it is the program it was as long as
it pushes no negative zero. -/
theorem Script.saving_keeps_program {s : Script} {p : Program} (h : s.compile = .ok p)
    (hfits : p.Fits) :
    ∃ q, Program.ofBytes p.toBytes = .ok q ∧
      (q = p ↔ ∀ i ∈ p.instructions, i.op = .push → i.value.number ≠ -0) := by
  have hwritten := Script.written_of_compile h
  exact ⟨p.stored, Program.ofBytes_toBytes hfits fun i hi => (hwritten i hi).toCanonical,
    Program.stored_eq_self hwritten⟩

theorem Script.saving_keeps_program_number :
    let s : Script := { source := "1" }
    let p : Program :=
      { instructions := [{ op := .push, value := .ofNumber (Float.ofBits 0x3FF0000000000000), span := ⟨0, 1⟩ },
          { op := .halt }],
        source := "1" }
    (s.compile = .ok p ∧ p.Fits) ∧
      ∃ q, Program.ofBytes p.toBytes = .ok q ∧
        (q = p ↔ ∀ i ∈ p.instructions, i.op = .push → i.value.number ≠ -0) := by
  intro s p
  let tree : Tree.Node :=
    { kind := .program, span := ⟨0, 1⟩, children := [{ kind := .number, span := ⟨0, 1⟩, text := "1" }] }
  have hparse : (s.parse.tree, s.parse.failure?) = (tree, none) := by cbv
  obtain ⟨htree, hfailure⟩ := Prod.mk.inj hparse
  have hcompile : s.compile = .ok p := by
    rw [Script.compile, hfailure, htree]
    rfl
  have hsource : Text.Fits p.source := by
    refine ⟨?_, by decide⟩
    change Text.isValid [0x31] = true
    simp [Text.isValid, Text.runes, Text.next?, Text.decode, Rune.isInvalid, Rune.replacement]
  have hfits : p.Fits := by
    refine ⟨?_, by decide, by simp [p], by decide, hsource, Text.fits_nil⟩
    intro i hi
    rcases List.mem_pair.mp hi with rfl | rfl
    all_goals exact ⟨Text.fits_nil, Text.fits_nil, Text.fits_nil, Text.fits_nil, by simp, by decide, by decide, by decide⟩
  exact ⟨⟨hcompile, hfits⟩, Script.saving_keeps_program hcompile hfits⟩

end Bareword
