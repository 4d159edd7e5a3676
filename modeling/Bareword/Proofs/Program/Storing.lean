import Bareword.Proofs.Cbor.Fraction
import Bareword.Proofs.Cbor.Reading
import Bareword.Program.Wire

/-! # Stored programs are read back

A field that is left out is read as nothing, which is what it held. What does not come back is the
sign of a zero, as a zero is left out whatever its sign, and the literal of an instruction that
pushes nothing.

* `Program.Fits`: the programs whose texts, lists and offsets are within what reading accepts.
* `Program.Canonical`: the programs all of whose operations have a mnemonic.
* `Program.stored`: a program as it comes back.
* `Program.ofBytes_toBytes`: the bytes of such a program are read as that.
-/

namespace Bareword
set_option autoImplicit false

open Cbor (Item maxElements)
open Cbor.Item (Bounded field? asRecord? asNat? asInt? asBool? asFloat? asText? asList?)

/-! ## What can be stored -/

/-- A text that reading accepts: valid UTF-8 of a length that a head can tell. -/
structure Text.Fits (t : Text) : Prop where
  isValid : t.isValid
  length_lt : t.length < 2 ^ 64

theorem Text.fits_nil : Text.Fits [] := ⟨by simp [Text.isValid, Text.runes, Text.next?], by decide⟩

/-- An instruction whose texts, parameters and offsets reading accepts. -/
structure Instruction.Fits (i : Instruction) : Prop where
  text : i.value.text.Fits
  flags : i.value.flags.Fits
  name : i.name.Fits
  label : i.label.Fits
  params : ∀ param ∈ i.params, param.Fits
  params_length : i.params.length ≤ maxElements
  start : -2 ^ 63 ≤ i.span.start ∧ i.span.start < 2 ^ 63
  stop : -2 ^ 63 ≤ i.span.stop ∧ i.span.stop < 2 ^ 63

/-- A program whose texts, lists and offsets reading accepts. -/
structure Program.Fits (p : Program) : Prop where
  instructions : ∀ i ∈ p.instructions, i.Fits
  instructions_length : p.instructions.length ≤ maxElements
  functions : ∀ f ∈ p.functions, f.Fits
  functions_length : p.functions.length ≤ maxElements
  source : p.source.Fits
  filename : p.filename.Fits

/-- An instruction with a mnemonic, whose other codes stand for what has no name only where nothing
with a name has that code. -/
structure Instruction.Canonical (i : Instruction) : Prop where
  op : i.op.mnemonic?.isSome
  kind : LiteralKind.ofCode i.value.kind.code = i.value.kind
  mode : TargetMode.ofCode i.mode.code = i.mode

/-- A program of such instructions. -/
def Program.Canonical (p : Program) : Prop := ∀ i ∈ p.instructions, i.Canonical

/-- A literal as it comes back. -/
def Literal.stored (l : Literal) : Literal :=
  { l with number := if l.number == 0 then 0 else l.number }

def Instruction.stored (i : Instruction) : Instruction :=
  { i with value := if i.op = .push then i.value.stored else {} }

def Program.stored (p : Program) : Program :=
  { p with instructions := p.instructions.map Instruction.stored }

namespace Program

/-! ## Records -/

/-- Entries with the fields up to a number, whose items are bounded. -/
structure Record (last depth : Nat) (entries : List (Item × Item)) : Prop where
  length_le : entries.length ≤ last
  keys : ∀ entry ∈ entries, ∃ n ≤ last, entry.1 = .unsigned n
  values : ∀ entry ∈ entries, entry.2.Bounded depth

variable {last depth : Nat} {entries : List (Item × Item)} {isEmpty : Bool} {item : Item}

theorem required_eq (field : Nat) (item : Item) : required field item = optional field false item :=
  rfl

theorem Record.first (h : item.Bounded depth) : Record 1 depth (optional 1 false item) where
  length_le := by simp [optional]
  keys entry he := ⟨1, le_rfl, by rw [List.mem_singleton.mp he]⟩
  values entry he := by
    rw [List.mem_singleton.mp he]
    exact h

theorem Record.add (hr : Record last depth entries) (isEmpty : Bool)
    (h : isEmpty = false → item.Bounded depth) :
    Record (last + 1) depth (entries ++ optional (last + 1) isEmpty item) := by
  have hkeys : ∀ entry ∈ entries, ∃ n ≤ last + 1, entry.1 = .unsigned n := fun entry he =>
    (hr.keys entry he).imp fun n hn => ⟨by omega, hn.2⟩
  have hlength := hr.length_le
  cases isEmpty with
  | true =>
    rw [optional, if_pos rfl, List.append_nil]
    exact ⟨by omega, hkeys, hr.values⟩
  | false =>
    rw [optional, if_neg (by decide)]
    refine ⟨by simpa using hlength, fun entry he => ?_, fun entry he => ?_⟩
    all_goals rcases List.mem_append.mp he with he | he
    · exact hkeys entry he
    · exact ⟨last + 1, le_rfl, by rw [List.mem_singleton.mp he]⟩
    · exact hr.values entry he
    · rw [List.mem_singleton.mp he]
      exact h rfl

theorem Record.bounded (hr : Record last depth entries) (hlast : last ≤ 24) :
    Bounded (depth + 1) (.map entries) := by
  refine .map (hr.length_le.trans (hlast.trans (by decide))) (fun entry he => ?_) hr.values
  obtain ⟨n, hn, heq⟩ := hr.keys entry he
  exact heq ▸ .unsigned (by omega)

theorem Record.asRecord? (hr : Record last depth entries) :
    Item.asRecord? (.map entries) = some entries := by
  simp only [Item.asRecord?, Item.value?, Item.untagged, Item.isNull, Option.bind_some,
    Bool.false_eq_true, if_false]
  refine if_pos (List.all_eq_true.mpr fun entry he => ?_)
  obtain ⟨n, -, heq⟩ := hr.keys entry he
  simp only [heq]

/-! ## Fields -/

variable {α : Type} {zero value : α} {get : Item → Option α}

theorem field?_first (h : get item = some value) :
    field? (optional 1 false item) 1 zero get = some value := by
  simp [field?, optional, Item.isKey, h]

/-- The last field has the value it was written with, or was left out as it held nothing. -/
theorem Record.field?_last (hr : Record last depth entries) (hzero : isEmpty = true → zero = value)
    (hget : isEmpty = false → get item = some value) :
    field? (entries ++ optional (last + 1) isEmpty item) (last + 1) zero get = some value := by
  have hnone : (entries.find? fun entry => Item.isKey (last + 1) entry.1) = none := by
    refine List.find?_eq_none.mpr fun entry he => ?_
    obtain ⟨n, hn, heq⟩ := hr.keys entry he
    have hne : n ≠ last + 1 := by omega
    simp [heq, Item.isKey, hne]
  rw [field?, List.find?_append, hnone, Option.none_or]
  cases isEmpty with
  | true => simp [optional, hzero rfl]
  | false => simp [optional, Item.isKey, hget rfl]

/-- A later field does not change what an earlier one holds. -/
theorem field?_before {field other : Nat} (h : other ≠ field) :
    field? (entries ++ optional other isEmpty item) field zero get = field? entries field zero get := by
  have hnone : ((optional other isEmpty item).find? fun entry => Item.isKey field entry.1) = none := by
    cases isEmpty <;> simp [optional, Item.isKey, h]
  rw [field?, field?, List.find?_append, hnone, Option.or_none]

/-! ## Literals -/

theorem ofText_bounded {t : Text} (h : t.Fits) (depth : Nat) : (Item.ofText t).Bounded depth :=
  .text h.length_lt

theorem ofFloat_bounded (x : Float) (depth : Nat) : (Item.ofFloat x).Bounded depth := by
  obtain ⟨bits, hlt, heq, -⟩ | ⟨bits, hlt, heq, -⟩ | ⟨bits, hlt, heq, -⟩ := Item.ofFloat_cases x
  · exact heq ▸ .half hlt
  · exact heq ▸ .single hlt
  · exact heq ▸ .double hlt

theorem code_bounded (c : UInt8) (depth : Nat) : (Item.unsigned c.toNat).Bounded depth :=
  .unsigned (by have := c.toNat_lt; omega)

theorem asNat?_code (c : UInt8) : asNat? 256 (.unsigned c.toNat) = some c.toNat :=
  Item.asNat?_unsigned c.toNat_lt

theorem eq_nil_of_isEmpty {β : Type} {xs : List β} (h : xs.isEmpty = true) : [] = xs :=
  (List.isEmpty_iff.mp h).symm

theorem literal?_literalItem {l : Literal} (hkind : LiteralKind.ofCode l.kind.code = l.kind)
    (ht : l.text.Fits) (hf : l.flags.Fits) (depth : Nat) :
    (literalItem l).Bounded (depth + 1) ∧ literal? (literalItem l) = some l.stored := by
  have h1 : Record 1 depth (optional 1 false (.unsigned l.kind.code.toNat)) := .first (code_bounded _ _)
  have h2 := h1.add (!l.flag) fun _ => Item.ofBool_bounded l.flag
  have h3 := h2.add (l.number == 0) fun _ => ofFloat_bounded l.number depth
  have h4 := h3.add l.text.isEmpty fun _ => ofText_bounded ht depth
  have h5 := h4.add l.flags.isEmpty fun _ => ofText_bounded hf depth
  have hflag : field? (_ ++ optional 2 (!l.flag) (Item.ofBool l.flag)) 2 false asBool? =
      some l.flag :=
    h1.field?_last (by simp) fun _ => Item.asBool?_ofBool _
  have hnumber : field? (_ ++ optional 3 (l.number == 0) (Item.ofFloat l.number)) 3 0 asFloat? =
      some l.stored.number :=
    h2.field?_last (fun h => by rw [Literal.stored, if_pos h]) fun hne => by
      rw [Literal.stored, if_neg (by simp [hne])]
      exact Item.asFloat?_ofFloat l.number
  have htext : field? (_ ++ optional 4 l.text.isEmpty (Item.ofText l.text)) 4 [] asText? =
      some l.text :=
    h3.field?_last eq_nil_of_isEmpty fun _ => Item.asText?_ofText ht.isValid
  have hflags : field? (_ ++ optional 5 l.flags.isEmpty (Item.ofText l.flags)) 5 [] asText? =
      some l.flags :=
    h4.field?_last eq_nil_of_isEmpty fun _ => Item.asText?_ofText hf.isValid
  refine ⟨h5.bounded (by decide), ?_⟩
  simp (disch := decide) only [literal?, literalItem, required_eq, h5.asRecord?, Option.bind_eq_bind,
    Option.bind_some, field?_before, field?_first (asNat?_code l.kind.code), hflag, hnumber, htext,
    hflags, Nat.toUInt8, UInt8.ofNat_toNat, hkind]
  rfl

/-! ## Instructions -/

theorem span?_written {s : Span} (hstart : -2 ^ 63 ≤ s.start ∧ s.start < 2 ^ 63)
    (hstop : -2 ^ 63 ≤ s.stop ∧ s.stop < 2 ^ 63) :
    span? (.array [Item.ofInt s.start, Item.ofInt s.stop]) = some s := by
  simp [span?, Item.value?, Item.untagged, Item.isNull, Item.asInt?_ofInt hstart,
    Item.asInt?_ofInt hstop]

theorem ofCode_code {op : Opcode} (h : op.mnemonic?.isSome) : Opcode.ofCode op.code = op := by
  cases op with
  | undefined => cases h
  | _ => decide

theorem toInt_range (x : Int64) : -2 ^ 63 ≤ x.toInt ∧ x.toInt < 2 ^ 63 :=
  ⟨x.le_toInt, x.toInt_lt⟩

theorem instruction?_instructionItem {i : Instruction} (h : i.Fits) (hc : i.Canonical)
    (depth : Nat) :
    (instructionItem i).Bounded (depth + 2) ∧ instruction? (instructionItem i) = some i.stored := by
  have hliteral := literal?_literalItem hc.kind h.text h.flags depth
  have h1 : Record 1 (depth + 1) (optional 1 false (.unsigned i.op.code.toNat)) :=
    .first (code_bounded _ _)
  have h2 := h1.add (i.op != .push) fun _ => hliteral.1
  have h3 := h2.add i.name.isEmpty fun _ => ofText_bounded h.name _
  have h4 := h3.add i.params.isEmpty fun _ =>
    Item.ofTexts_bounded h.params_length fun param hparam => (h.params param hparam).length_lt
  have h5 := h4.add i.label.isEmpty fun _ => ofText_bounded h.label _
  have h6 := h5.add (i.mode.code == 0) fun _ => code_bounded i.mode.code _
  have h7 := h6.add (i.target == 0) fun _ => Item.ofInt_bounded (toInt_range i.target)
  have h8 := h7.add (i.count == 0) fun _ => Item.ofInt_bounded (toInt_range i.count)
  have hspan : Bounded (depth + 1) (.array [Item.ofInt i.span.start, Item.ofInt i.span.stop]) :=
    .array (by simp [maxElements]) fun item hitem => by
      rcases List.mem_pair.mp hitem with rfl | rfl
      exacts [Item.ofInt_bounded h.start, Item.ofInt_bounded h.stop]
  have h9 := h8.add false fun _ => hspan
  have hvalue : field? (_ ++ optional 2 (i.op != .push) (literalItem i.value)) 2 {} literal? =
      some i.stored.value :=
    h1.field?_last (fun hne => by rw [Instruction.stored, if_neg (by simpa using hne)])
      fun heq => by
        rw [hliteral.2, Instruction.stored, if_pos (by simpa using heq)]
  have hname : field? (_ ++ optional 3 i.name.isEmpty (Item.ofText i.name)) 3 [] asText? =
      some i.name :=
    h2.field?_last eq_nil_of_isEmpty fun _ => Item.asText?_ofText h.name.isValid
  have hparams : field? (_ ++ optional 4 i.params.isEmpty (Item.ofTexts i.params)) 4 []
      (asList? asText?) = some i.params :=
    h3.field?_last eq_nil_of_isEmpty fun _ =>
      Item.asList?_ofTexts fun param hparam => (h.params param hparam).isValid
  have hlabel : field? (_ ++ optional 5 i.label.isEmpty (Item.ofText i.label)) 5 [] asText? =
      some i.label :=
    h4.field?_last eq_nil_of_isEmpty fun _ => Item.asText?_ofText h.label.isValid
  have hmode : field? (_ ++ optional 6 (i.mode.code == 0) (.unsigned i.mode.code.toNat)) 6 0
      (asNat? 256) = some i.mode.code.toNat :=
    h5.field?_last (fun hzero => by rw [beq_iff_eq.mp hzero]; rfl) fun _ => asNat?_code _
  have htarget : field? (_ ++ optional 7 (i.target == 0) (Item.ofInt i.target.toInt)) 7 0 asInt? =
      some i.target.toInt :=
    h6.field?_last (fun hzero => by rw [beq_iff_eq.mp hzero]; rfl) fun _ =>
      Item.asInt?_ofInt (toInt_range i.target)
  have hcount : field? (_ ++ optional 8 (i.count == 0) (Item.ofInt i.count.toInt)) 8 0 asInt? =
      some i.count.toInt :=
    h7.field?_last (fun hzero => by rw [beq_iff_eq.mp hzero]; rfl) fun _ =>
      Item.asInt?_ofInt (toInt_range i.count)
  have hplace : field? (_ ++ optional 9 false (.array [Item.ofInt i.span.start, Item.ofInt i.span.stop]))
      9 .zero span? = some i.span :=
    h8.field?_last (by simp) fun _ => span?_written h.start h.stop
  refine ⟨h9.bounded (by decide), ?_⟩
  simp (disch := decide) only [instruction?, instructionItem, required_eq, h9.asRecord?, Option.bind_eq_bind,
    Option.bind_some, field?_before, field?_first (asNat?_code i.op.code), hvalue, hname, hparams,
    hlabel, hmode, htarget, hcount, hplace, Nat.toUInt8, UInt8.ofNat_toNat, hc.mode,
    Int64.ofInt_toInt, ofCode_code hc.op]
  rfl

/-! ## Programs -/

theorem ofItem?_toItem {p : Program} (h : p.Fits) (hc : p.Canonical) (depth : Nat) :
    p.toItem.Bounded (depth + 4) ∧ ofItem? p.toItem = some (formatVersion, p.stored) := by
  have hversion : -2 ^ 63 ≤ formatVersion ∧ formatVersion < 2 ^ 63 := by decide
  have h1 : Record 1 (depth + 3) (optional 1 false (Item.ofInt formatVersion)) :=
    .first (Item.ofInt_bounded hversion)
  have h2 := h1.add p.filename.isEmpty fun _ => ofText_bounded h.filename _
  have h3 := h2.add p.source.isEmpty fun _ => ofText_bounded h.source _
  have h4 := h3.add (!p.linked) fun _ => Item.ofBool_bounded p.linked
  have h5 := h4.add p.functions.isEmpty fun _ =>
    Item.ofTexts_bounded h.functions_length fun f hf => (h.functions f hf).length_lt
  have hcode : Bounded (depth + 3) (.array (p.instructions.map instructionItem)) := by
    refine .array (by simpa using h.instructions_length) fun item hitem => ?_
    obtain ⟨i, hi, rfl⟩ := List.mem_map.mp hitem
    exact (instruction?_instructionItem (h.instructions i hi) (hc i hi) depth).1
  have h6 := h5.add false fun _ => hcode
  have hfilename : field? (_ ++ optional 2 p.filename.isEmpty (Item.ofText p.filename)) 2 []
      asText? = some p.filename :=
    h1.field?_last eq_nil_of_isEmpty fun _ => Item.asText?_ofText h.filename.isValid
  have hsource : field? (_ ++ optional 3 p.source.isEmpty (Item.ofText p.source)) 3 [] asText? =
      some p.source :=
    h2.field?_last eq_nil_of_isEmpty fun _ => Item.asText?_ofText h.source.isValid
  have hlinked : field? (_ ++ optional 4 (!p.linked) (Item.ofBool p.linked)) 4 false asBool? =
      some p.linked :=
    h3.field?_last (by simp) fun _ => Item.asBool?_ofBool _
  have hfunctions : field? (_ ++ optional 5 p.functions.isEmpty (Item.ofTexts p.functions)) 5 []
      (asList? asText?) = some p.functions :=
    h4.field?_last eq_nil_of_isEmpty fun _ =>
      Item.asList?_ofTexts fun f hf => (h.functions f hf).isValid
  have hinstructions : field? (_ ++ optional 6 false (.array (p.instructions.map instructionItem)))
      6 [] (asList? instruction?) = some p.stored.instructions :=
    h5.field?_last (by simp) fun _ =>
      Item.asList?_map fun i hi =>
        (instruction?_instructionItem (h.instructions i hi) (hc i hi) depth).2
  refine ⟨h6.bounded (by decide), ?_⟩
  simp (disch := decide) only [ofItem?, toItem, required_eq, h6.asRecord?, Option.bind_eq_bind,
    Option.bind_some, field?_before, field?_first (Item.asInt?_ofInt hversion), hfilename, hsource,
    hlinked, hfunctions, hinstructions]
  rfl

/-- The bytes of a program that fits are read as that program, the signs of its zeros apart. -/
theorem ofBytes_toBytes {p : Program} (h : p.Fits) (hc : p.Canonical) :
    ofBytes p.toBytes = .ok p.stored := by
  obtain ⟨hbounded, hitem⟩ := ofItem?_toItem h hc 28
  have hdefined : p.stored.firstUndefined? = none := by
    rw [firstUndefined?, Option.map_eq_none_iff, List.find?_eq_none]
    rintro ⟨i, n⟩ hi
    have hmem := List.fst_mem_of_mem_zipIdx hi
    obtain ⟨j, hj, rfl⟩ := List.mem_map.mp hmem
    obtain ⟨mnemonic, heq⟩ := Option.isSome_iff_exists.mp (hc j hj).op
    simp [Instruction.stored, heq]
  rw [ofBytes, toBytes, Item.ofBytes?_encode hbounded, Option.bind_some, hitem]
  simp [hdefined]

/-! ## There and back -/

theorem literalItem_stored (l : Literal) : literalItem l.stored = literalItem l := by
  by_cases h : l.number == 0
  · have hzero : ((0 : Float) == 0) = true := rfl
    simp [literalItem, Literal.stored, h, hzero, optional]
  · simp [literalItem, Literal.stored, h]

theorem instructionItem_stored (i : Instruction) : instructionItem i.stored = instructionItem i := by
  by_cases h : i.op = .push
  · simp [instructionItem, Instruction.stored, h, literalItem_stored]
  · simp [instructionItem, Instruction.stored, h, optional]

/-- What comes back is written like what was stored. -/
theorem toBytes_stored (p : Program) : p.stored.toBytes = p.toBytes := by
  have h : p.stored.instructions.map instructionItem = p.instructions.map instructionItem := by
    rw [stored, List.map_map]
    exact List.map_congr_left fun i _ => instructionItem_stored i
  rw [toBytes, toBytes, toItem, toItem, h]
  rfl

theorem literal_beq (l m : Literal) : (l == m) = (l.kind == m.kind && (l.flag == m.flag &&
    (l.number == m.number && (l.text == m.text && l.flags == m.flags)))) := rfl

theorem stored_literal_beq {l : Literal} (h : l.number ≠ Float.nan) : l.stored == l := by
  have hnumber : (l.stored.number == l.number) = true := by
    by_cases hzero : l.number == 0
    · rw [Literal.stored, if_pos hzero]
      exact BEq.symm hzero
    · rw [Literal.stored, if_neg hzero]
      exact Float.beq_self_iff.mpr h
  rw [literal_beq, hnumber]
  simp [Literal.stored]

theorem instruction_beq (i j : Instruction) : (i == j) = (i.op == j.op && (i.value == j.value &&
    (i.name == j.name && (i.params == j.params && (i.label == j.label && (i.mode == j.mode &&
    (i.target == j.target && (i.count == j.count && i.span == j.span)))))))) := rfl

theorem stored_instruction_beq {i : Instruction} (h : i.value.number ≠ Float.nan)
    (hvalue : i.op ≠ .push → i.value = {}) : i.stored == i := by
  have hbeq : (i.stored.value == i.value) = true := by
    by_cases hpush : i.op = .push
    · rw [Instruction.stored, if_pos hpush]
      exact stored_literal_beq h
    · rw [Instruction.stored, if_neg hpush, hvalue hpush]
      rfl
  rw [instruction_beq, hbeq]
  simp [Instruction.stored]

theorem stored_sameCode {p : Program} (h : ∀ i ∈ p.instructions, i.value.number ≠ Float.nan)
    (hvalue : ∀ i ∈ p.instructions, i.op ≠ .push → i.value = {}) : p.stored.sameCode p := by
  have hcode : (p.instructions.map Instruction.stored == p.instructions) = true := by
    generalize p.instructions = is at h hvalue
    induction is with
    | nil => rfl
    | cons i is ih =>
      rw [List.map_cons, List.cons_beq_cons, stored_instruction_beq (h i (by simp))
        (hvalue i (by simp)), Bool.true_and]
      exact ih (fun j hj => h j (by simp [hj])) fun j hj => hvalue j (by simp [hj])
  simp [sameCode, stored, hcode]

/-- A program that fits comes back from its bytes as a program with the same code, source and file
name, and that program is stored as the same bytes. -/
theorem storing_round_trips {p : Program} (h : p.Fits) (hc : p.Canonical)
    (hvalue : ∀ i ∈ p.instructions, i.op ≠ .push → i.value = {})
    (hnumber : ∀ i ∈ p.instructions, i.value.number ≠ Float.nan) :
    ∃ q, ofBytes p.toBytes = .ok q ∧ q.sameCode p ∧ q.source = p.source ∧
      q.filename = p.filename ∧ q.toBytes = p.toBytes :=
  ⟨p.stored, ofBytes_toBytes h hc, stored_sameCode hnumber hvalue, rfl, rfl, toBytes_stored p⟩

theorem storing_round_trips_push :
    let p : Program :=
      { instructions := [{ op := .push, value := Literal.ofNumber 0.5 },
          { op := .jump, mode := .other 7, target := -1 }], filename := [0x61], linked := true }
    (p.Fits ∧ p.Canonical ∧ (∀ i ∈ p.instructions, i.op ≠ .push → i.value = {}) ∧
      ∀ i ∈ p.instructions, i.value.number ≠ Float.nan) ∧
      ∃ q, ofBytes p.toBytes = .ok q ∧ q.sameCode p ∧ q.source = p.source ∧
        q.filename = p.filename ∧ q.toBytes = p.toBytes := by
  intro p
  have hname : Text.Fits [0x61] := by
    refine ⟨?_, by decide⟩
    simp [Text.isValid, Text.runes, Text.next?, Text.decode, Rune.isInvalid, Rune.replacement]
  have hfits : p.Fits := by
    refine ⟨?_, by decide, by simp [p], by decide, Text.fits_nil, hname⟩
    intro i hi
    rcases List.mem_pair.mp hi with rfl | rfl
    all_goals exact ⟨Text.fits_nil, Text.fits_nil, Text.fits_nil, Text.fits_nil, by simp, by decide, by decide, by decide⟩
  have hcanonical : p.Canonical := by
    intro i hi
    rcases List.mem_pair.mp hi with rfl | rfl
    all_goals exact ⟨rfl, rfl, rfl⟩
  have hvalue : ∀ i ∈ p.instructions, i.op ≠ .push → i.value = {} := by
    intro i hi hne
    rcases List.mem_pair.mp hi with rfl | rfl
    · exact absurd rfl hne
    · rfl
  have hnumber : ∀ i ∈ p.instructions, i.value.number ≠ Float.nan := by
    intro i hi
    rcases List.mem_pair.mp hi with rfl | rfl
    all_goals exact Float.beq_self_iff.mp (by decide +kernel)
  exact ⟨⟨hfits, hcanonical, hvalue, hnumber⟩,
    storing_round_trips hfits hcanonical hvalue hnumber⟩

end Program
end Bareword
