import Bareword.Proofs.Program.Saving
import Bareword.Proofs.Tree.Filenames
import Bareword.Proofs.Tree.Reports

/-! # Programs with the same code

What programs with the same code are stored as differs only where they were compiled from, and that is
stored too: a program that is compiled from the same text in another file has other bytes.

* `Program.items_eq_of_sameCode`: the same code is the same records.
* `Cbor.encode_inj`: an item in front of any bytes is told by them.
* `Program.toBytes_eq_iff`: when programs with the same code have the same bytes.
* `Script.compile_named`: what becomes of a script in another file.
* `sameCode_storing`: the bytes of programs with the same code and of compilations of the same text.
-/

namespace Bareword
set_option autoImplicit false

open Cbor (Item)

/-! ## Records of the same code -/

namespace Program

/-- Numbers that are equal are written alike: both zeros are left out. -/
theorem optional_number_eq {x y : Float} (h : (x == y) = true) (field : Nat) :
    optional field (x == 0) (Item.ofFloat x) = optional field (y == 0) (Item.ofFloat y) := by
  have hzero : ((0 : Float) == 0) = true := rfl
  obtain ⟨-, -, rfl | ⟨rfl, rfl⟩ | ⟨rfl, rfl⟩⟩ := Float.beq_iff_ne_nan_and_eq.mp h
  · rfl
  · rw [hzero, neg_zero_beq]
    rfl
  · rw [hzero, neg_zero_beq]
    rfl

theorem literalItem_eq_of_beq {l m : Literal} (h : (l == m) = true) : literalItem l = literalItem m := by
  simp only [literal_beq, Bool.and_eq_true, beq_iff_eq] at h
  obtain ⟨hkind, hflag, hnumber, htext, hflags⟩ := h
  rw [literalItem, literalItem, hkind, hflag, htext, hflags, optional_number_eq hnumber]

theorem instructionItem_eq_of_beq {i j : Instruction} (h : (i == j) = true) :
    instructionItem i = instructionItem j := by
  simp only [instruction_beq, Bool.and_eq_true, beq_iff_eq] at h
  obtain ⟨hop, hvalue, hname, hparams, hlabel, hmode, htarget, hcount, hspan⟩ := h
  rw [instructionItem, instructionItem, hop, literalItem_eq_of_beq hvalue, hname, hparams, hlabel, hmode, htarget,
    hcount, hspan]

variable {p q : Program}

/-- Programs with the same code have the same records of instructions. -/
theorem items_eq_of_sameCode (h : p.sameCode q) :
    p.linked = q.linked ∧ p.functions = q.functions ∧
      p.instructions.map instructionItem = q.instructions.map instructionItem := by
  simp only [sameCode, Bool.and_eq_true, beq_iff_eq] at h
  obtain ⟨⟨hlinked, hfunctions⟩, hcode⟩ := h
  refine ⟨hlinked, hfunctions, ?_⟩
  generalize p.instructions = is, q.instructions = js at hcode
  induction is generalizing js with
  | nil =>
    cases js with
    | nil => rfl
    | cons j js => cases hcode
  | cons i is ih =>
    cases js with
    | nil => cases hcode
    | cons j js =>
      rw [List.cons_beq_cons, Bool.and_eq_true] at hcode
      rw [List.map_cons, List.map_cons, instructionItem_eq_of_beq hcode.1, ih js hcode.2]

/-! ## Bytes -/

/-- The fields of a program that are about where it was compiled from. -/
def sourceFields (p : Program) : List (Item × Item) :=
  optional 2 p.filename.isEmpty (Item.ofText p.filename) ++ optional 3 p.source.isEmpty (Item.ofText p.source)

/-- The fields of a program that are about its code. -/
def codeFields (p : Program) : List (Item × Item) :=
  optional 4 (!p.linked) (Item.ofBool p.linked) ++ optional 5 p.functions.isEmpty (Item.ofTexts p.functions) ++
    required 6 (.array (p.instructions.map instructionItem))

theorem toItem_eq (p : Program) :
    p.toItem = .map (required 1 (Item.ofInt formatVersion) ++ (p.sourceFields ++ p.codeFields)) := by
  simp only [toItem, sourceFields, codeFields, List.append_assoc]

theorem codeFields_eq_of_sameCode (h : p.sameCode q) : p.codeFields = q.codeFields := by
  obtain ⟨hlinked, hfunctions, hcode⟩ := items_eq_of_sameCode h
  rw [codeFields, codeFields, hlinked, hfunctions, hcode]

/-- The bytes of a bounded item are those of no other one. -/
theorem encode_inj {x y : Item} (hx : x.Bounded Cbor.maxNesting) (hy : y.Bounded Cbor.maxNesting)
    (h : x.encode = y.encode) : x = y := by
  have hread := Item.ofBytes?_encode hx
  rw [h, Item.ofBytes?_encode hy] at hread
  exact (Option.some.inj hread).symm

/-- Where a program was compiled from can be told: its name and its text have lengths that can be written. -/
structure Placed (p : Program) : Prop where
  source : p.source.length < 2 ^ 64
  filename : p.filename.length < 2 ^ 64

theorem length_sourceFields_le (p : Program) : p.sourceFields.length ≤ 2 := by
  rw [sourceFields, List.length_append]
  cases p.filename.isEmpty <;> cases p.source.isEmpty <;> simp [optional]

theorem length_codeFields_le (p : Program) : p.codeFields.length ≤ 3 := by
  rw [codeFields, List.length_append, List.length_append]
  cases p.linked <;> cases p.functions.isEmpty <;> simp [optional, required]

theorem eq_of_mem_optional {field : Nat} {isEmpty : Bool} {item : Item} {entry : Item × Item}
    (h : entry ∈ optional field isEmpty item) : entry = (.unsigned field, item) := by
  rw [optional] at h
  split at h
  · cases h
  · exact List.mem_singleton.mp h

theorem Placed.bounded (h : p.Placed) : (Item.map p.sourceFields).Bounded Cbor.maxNesting := by
  have hentry (entry : Item × Item) (he : entry ∈ p.sourceFields) :
      (∃ n < 24, entry.1 = .unsigned n) ∧ ∃ t : Text, t.length < 2 ^ 64 ∧ entry.2 = Item.ofText t := by
    rcases List.mem_append.mp he with he | he
    · rw [eq_of_mem_optional he]
      exact ⟨⟨2, by decide, rfl⟩, _, h.filename, rfl⟩
    · rw [eq_of_mem_optional he]
      exact ⟨⟨3, by decide, rfl⟩, _, h.source, rfl⟩
  refine .map ((length_sourceFields_le p).trans (by decide)) (fun entry he => ?_) fun entry he => ?_
  · obtain ⟨⟨n, hn, hkey⟩, -⟩ := hentry entry he
    rw [hkey]
    exact .unsigned (by omega)
  · obtain ⟨-, t, ht, hvalue⟩ := hentry entry he
    rw [hvalue]
    exact .text ht

/-- The fields about where a program was compiled from say so. -/
theorem sourceFields_inj (h : p.sourceFields = q.sourceFields) : p.source = q.source ∧ p.filename = q.filename := by
  simp only [sourceFields, optional, Item.ofText] at h
  cases hp : p.filename <;> cases hp' : p.source <;> cases hq : q.filename <;> cases hq' : q.source <;>
    simp_all

/-- Short maps with the same bytes have as many entries, and these have the same bytes. -/
theorem encode_map_inj {es fs : List (Item × Item)} (hes : es.length < 24) (hfs : fs.length < 24)
    (h : (Item.map es).encode = (Item.map fs).encode) :
    es.length = fs.length ∧
      (es.flatMap fun e => e.1.encode ++ e.2.encode) = fs.flatMap fun e => e.1.encode ++ e.2.encode := by
  rw [Item.encode, Item.encode, Item.head, Item.head, if_pos hes, if_pos hfs, Cbor.encodeEntries_eq,
    Cbor.encodeEntries_eq] at h
  obtain ⟨hhead, hrest⟩ := List.cons.inj h
  refine ⟨?_, hrest⟩
  have hnat := congrArg UInt8.toNat hhead
  have hsmall (n : Nat) (hn : n < 24) : (5 * 32 + n).toUInt8.toNat = 5 * 32 + n := Nat.mod_eq_of_lt (by omega)
  rw [hsmall _ hes, hsmall _ hfs] at hnat
  omega

theorem toBytes_eq_of_source_eq (hcode : p.codeFields = q.codeFields) (hsource : p.source = q.source)
    (hfilename : p.filename = q.filename) : p.toBytes = q.toBytes := by
  rw [toBytes, toBytes, toItem_eq, toItem_eq, hcode, sourceFields, sourceFields, hsource, hfilename]

/-- Programs with the same fields about their code have the same bytes when they were compiled from the same
text in the same file, and only then. -/
theorem toBytes_eq_iff (hcode : p.codeFields = q.codeFields) (hp : p.Placed) (hq : q.Placed) :
    p.toBytes = q.toBytes ↔ p.source = q.source ∧ p.filename = q.filename := by
  refine ⟨fun hbytes => ?_, fun ⟨hsource, hfilename⟩ => toBytes_eq_of_source_eq hcode hsource hfilename⟩
  have hlength (r : Program) :
      (required 1 (Item.ofInt formatVersion) ++ (r.sourceFields ++ r.codeFields)).length < 24 := by
    have hsource := length_sourceFields_le r
    have hcode := length_codeFields_le r
    simp only [required, List.length_append, List.length_singleton]
    omega
  -- The fields about the code stand last and are the same, so those in front of them have the same bytes.
  rw [toBytes, toBytes, toItem_eq, toItem_eq] at hbytes
  obtain ⟨hsame, hfields⟩ := encode_map_inj (hlength p) (hlength q) hbytes
  have hcount : p.sourceFields.length = q.sourceFields.length := by
    simp only [required, List.length_append, hcode] at hsame
    omega
  simp only [List.flatMap_append, hcode, List.append_cancel_left_eq, List.append_cancel_right_eq] at hfields
  refine sourceFields_inj (Item.map.inj (encode_inj hp.bounded hq.bounded ?_))
  rw [Item.encode, Item.encode, hcount, Cbor.encodeEntries_eq, Cbor.encodeEntries_eq, hfields]

/-- The program of the same text in another file. -/
def named (filename : Text) (p : Program) : Program := { p with filename }

end Program

/-! ## Scripts in other files -/

def Script.named (filename : Text) (s : Script) : Script := { s with filename }

theorem Program.ofTree_named {source old : Text} {n : Tree.Node} {p : Program}
    (h : Program.ofTree source old (some n) = .ok p) (filename : Text) :
    p.filename = old ∧ Program.ofTree source filename (some n) = .ok (p.named filename) := by
  obtain ⟨es, hes, rfl⟩ := Program.ofTree_eq_ok h
  refine ⟨rfl, ?_⟩
  rw [Program.ofTree] at h ⊢
  dsimp only at h ⊢
  split at h
  · cases h
  · rename_i hkind
    rw [if_neg hkind]
    split at h
    · cases h
    · rename_i hnone
      rw [Tree.Grammar.ofFaults_eq_none, List.map_eq_nil_iff] at hnone
      rw [hnone, hes]
      rfl

/-- A script that is compiled in one file is compiled in every other one, to the same program but for the
name of the file. -/
theorem Script.compile_named {s : Script} {p : Program} (h : s.compile = .ok p) (filename : Text) :
    p.filename = s.filename ∧ (s.named filename).compile = .ok (p.named filename) := by
  have hparse : (s.named filename).parse =
      { s.parse with faults := s.parse.faults.map (·.named filename) } := Tree.parse_named filename s.setup
  unfold compile at h ⊢
  dsimp only at h ⊢
  cases hfailure : s.parse.failure? with
  | some failure =>
    rw [hfailure] at h
    cases h
  | none =>
    have hnone : s.parse.faults = [] := List.map_eq_nil_iff.mp (Tree.Grammar.ofFaults_eq_none.mp hfailure)
    have hfailure' : (s.named filename).parse.failure? = none := by
      rw [hparse, Tree.Parsed.failure?, hnone]
      rfl
    rw [hfailure] at h
    rw [hfailure', hparse]
    exact Program.ofTree_named h filename

/-- Programs with the same code are stored as the same bytes when they were compiled from the same text in the
same file, and only then. A script that one of them is the program of is compiled in every other file to the same
program but for the name of the file, which has the same code and other bytes. -/
theorem sameCode_storing {p q : Program} (h : p.sameCode q) :
    (p.source = q.source → p.filename = q.filename → p.toBytes = q.toBytes ∧ p.fingerprint = q.fingerprint) ∧
    (p.Placed → q.Placed → (p.toBytes = q.toBytes ↔ p.source = q.source ∧ p.filename = q.filename)) ∧
    ∀ (s : Script) (filename : Text), s.compile = .ok p →
      (s.named filename).compile = .ok (p.named filename) ∧ (p.named filename).sameCode q ∧
      (p.Placed → (p.named filename).Placed → (p.toBytes = (p.named filename).toBytes ↔ s.filename = filename)) := by
  have hcode := Program.codeFields_eq_of_sameCode h
  refine ⟨fun hsource hfilename => ?_, Program.toBytes_eq_iff hcode, fun s filename hs => ?_⟩
  · have hbytes := Program.toBytes_eq_of_source_eq hcode hsource hfilename
    exact ⟨hbytes, congrArg Digest.fingerprint hbytes⟩
  · obtain ⟨hfilename, hcompile⟩ := Script.compile_named hs filename
    refine ⟨hcompile, h, fun hp hq => ?_⟩
    have hnamed : p.codeFields = (p.named filename).codeFields := rfl
    rw [Program.toBytes_eq_iff hnamed hp hq, hfilename]
    exact and_iff_right rfl

theorem sameCode_storing_name :
    let s : Script := { source := "x" }
    let p : Program :=
      { instructions := [{ op := .tryCall, name := "x", span := ⟨0, 1⟩ }, { op := .halt }], source := "x" }
    s.compile = .ok p ∧ p.Placed ∧ (p.named "a").Placed ∧ p.sameCode (p.named "a") ∧
      (s.named "a").compile = .ok (p.named "a") ∧ p.toBytes ≠ (p.named "a").toBytes := by
  intro s p
  have hcompile : s.compile = .ok p := by cbv
  have hp : p.Placed := ⟨by decide, by decide⟩
  have hq : (p.named "a").Placed := ⟨by decide, by decide⟩
  have hsame : p.sameCode (p.named "a") := by decide +kernel
  obtain ⟨-, hbytes, hscript⟩ := sameCode_storing hsame
  refine ⟨hcompile, hp, hq, hsame, (hscript s "a" hcompile).1, fun heq => ?_⟩
  exact absurd ((hbytes hp hq).mp heq).2 (by decide)

end Bareword
