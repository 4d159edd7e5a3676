import Bareword.Proofs.Program.Image
import Bareword.Proofs.Program.Typing

/-! # Generated code can be linked

The labels of generated code are all different, every label that is led to stands somewhere, and
every jump over some code ends within it.

* `Linkable`: what linking asks of generated code; `Gen.Typed.linkable` says that it is there.
* `Machine.ofProgram_compile`: there is a machine of every compiled program.
-/

namespace Bareword
set_option autoImplicit false
open Program (resolve resolveAll labels)
open Machine (Slot)

/-! ## Labels -/

def labelNames (is : List Instruction) : List Text := (is.filter (·.isLabel)).map (·.name)

theorem labelNames_append (is js : List Instruction) :
    labelNames (is ++ js) = labelNames is ++ labelNames js := by
  rw [labelNames, List.filter_append, List.map_append]
  rfl

theorem labelNames_cons_label {i : Instruction} (h : i.isLabel = true) (is : List Instruction) :
    labelNames (i :: is) = i.name :: labelNames is := by
  rw [labelNames, List.filter_cons_of_pos h]
  rfl

theorem labelNames_cons {i : Instruction} (h : i.isLabel = false) (is : List Instruction) :
    labelNames (i :: is) = labelNames is := by
  rw [labelNames, List.filter_cons_of_neg (by simp [h])]
  rfl

theorem labelNames_perm {is js : List Instruction} (h : is.Perm js) :
    (labelNames is).Perm (labelNames js) :=
  (h.filter _).map _

theorem Gen.functionLabel_injective : Function.Injective Gen.functionLabel := fun _ _ h =>
  Text.ofNat_injective (List.append_cancel_left h)

theorem Gen.endLabel_injective : Function.Injective Gen.endLabel := fun _ _ h =>
  Text.ofNat_injective (List.append_cancel_left h)

theorem Gen.functionLabel_ne_endLabel (m n : Nat) : Gen.functionLabel m ≠ Gen.endLabel n := by
  intro h
  have hsecond : (Gen.functionLabel m)[1]? = (Gen.endLabel n)[1]? := congrArg (·[1]?) h
  have hf : (Gen.functionLabel m)[1]? = some (Text.byte 'f') := rfl
  have he : (Gen.endLabel n)[1]? = some (Text.byte 'e') := rfl
  rw [hf, he] at hsecond
  exact absurd hsecond (by decide)

/-- The label has a number that was given between `c` and `d`. -/
def Numbered (c d : Counters) (name : Text) : Prop :=
  (∃ n, c.functions ≤ n ∧ n < d.functions ∧ name = Gen.functionLabel n) ∨
    ∃ n, c.conditionals < n ∧ n ≤ d.conditionals ∧ name = Gen.endLabel n

theorem Numbered.not_later {c d e : Counters} {name : Text} (h : Numbered c d name) :
    ¬ Numbered d e name := by
  rcases h with ⟨m, -, hm, rfl⟩ | ⟨m, -, hm, rfl⟩
  · rintro (⟨n, hn, -, heq⟩ | ⟨n, -, -, heq⟩)
    · have := Gen.functionLabel_injective heq
      omega
    · exact Gen.functionLabel_ne_endLabel m n heq
  · rintro (⟨n, -, -, heq⟩ | ⟨n, hn, -, heq⟩)
    · exact Gen.functionLabel_ne_endLabel n m heq.symm
    · have := Gen.endLabel_injective heq
      omega

theorem Numbered.mono {c c' d d' : Counters} {name : Text} (h : Numbered c d name)
    (hf : c'.functions ≤ c.functions) (hc : c'.conditionals ≤ c.conditionals)
    (hf' : d.functions ≤ d'.functions) (hc' : d.conditionals ≤ d'.conditionals) :
    Numbered c' d' name := by
  rcases h with ⟨n, hlow, hhigh, rfl⟩ | ⟨n, hlow, hhigh, rfl⟩
  · exact .inl ⟨n, Nat.le_trans hf hlow, Nat.lt_of_lt_of_le hhigh hf', rfl⟩
  · exact .inr ⟨n, Nat.lt_of_le_of_lt hc hlow, Nat.le_trans hhigh hc', rfl⟩

/-! ## What linking asks for -/

/-- Every relative jump stays within the instructions. -/
def Relative : List Instruction → Prop
  | [] => True
  | i :: is =>
    (i.mode = .relative → ∃ n, i.target = Int64.ofNat n ∧ n ≤ Instruction.size is) ∧ Relative is

theorem Relative.append {is js : List Instruction} (hi : Relative is) (hj : Relative js) :
    Relative (is ++ js) := by
  induction is with
  | nil => exact hj
  | cons i is ih =>
    refine ⟨fun hmode => ?_, ih hi.2⟩
    obtain ⟨n, ht, hn⟩ := hi.1 hmode
    refine ⟨n, ht, ?_⟩
    show n ≤ Instruction.size (is ++ js)
    rw [Image.size_append]
    omega

theorem Relative.cons {i : Instruction} {is : List Instruction} (hi : i.mode ≠ .relative)
    (his : Relative is) : Relative (i :: is) :=
  ⟨fun h => absurd h hi, his⟩

theorem Relative.bodies {bs : List Body} (h : ∀ b ∈ bs, Relative b.code) :
    Relative (bs.flatMap Expr.placed) := by
  induction bs with
  | nil => exact trivial
  | cons b bs ih =>
    obtain ⟨hb, hbs⟩ := List.forall_mem_cons.mp h
    have hplaced : Relative (Expr.placed b) := .cons (by simp) hb
    exact hplaced.append (ih hbs)

/-- All instructions of numbered code. -/
def Emitted.all (e : Emitted) : List Instruction := e.code ++ e.bodies.flatMap Expr.placed

/-- The code can be linked, except that it may leave for a label that stands elsewhere. -/
structure Linkable (exit : Option Text) (c : Counters) (e : Emitted) : Prop where
  functions : c.functions ≤ e.next.functions
  conditionals : c.conditionals ≤ e.next.conditionals
  distinct : (labelNames e.all).Nodup
  numbered : ∀ name ∈ labelNames e.all, Numbered c e.next name
  leads : ∀ i ∈ e.all, i.mode = .label → i.label ∈ labelNames e.all ∨ exit = some i.label
  relative : Relative e.code
  bodies : ∀ b ∈ e.bodies, Relative b.code
  literals : ∀ i ∈ e.all, i.op = .push → ∃ v, Value.ofLiteral i.value = .ok v

namespace Linkable
variable {exit : Option Text} {c : Counters}

theorem nil : Linkable exit c (Gen.nil c) where
  functions := Nat.le_refl _
  conditionals := Nat.le_refl _
  distinct := List.nodup_nil
  numbered := List.forall_mem_nil _
  leads := List.forall_mem_nil _
  relative := trivial
  bodies := List.forall_mem_nil _
  literals := List.forall_mem_nil _

theorem instr {i : Instruction} (hop : i.isLabel = false) (hmode : i.mode ≠ .relative)
    (hexit : i.mode = .label → exit = some i.label)
    (hv : i.op = .push → ∃ v, Value.ofLiteral i.value = .ok v) : Linkable exit c (Gen.instr i c) where
  functions := Nat.le_refl _
  conditionals := Nat.le_refl _
  distinct := by
    show (labelNames [i]).Nodup
    rw [labelNames_cons hop]
    exact List.nodup_nil
  numbered := by
    show ∀ name ∈ labelNames [i], _
    rw [labelNames_cons hop]
    exact List.forall_mem_nil _
  leads := List.forall_mem_singleton.mpr fun h => .inr (hexit h)
  relative := .cons hmode trivial
  bodies := List.forall_mem_nil _
  literals := List.forall_mem_singleton.mpr hv

theorem all_append (g h : Gen) (c : Counters) :
    ((g ++ h) c).all.Perm ((g c).all ++ (h (g c).next).all) := by
  rw [Gen.append_apply, Emitted.all, Emitted.all, Emitted.all, List.flatMap_append,
    List.append_assoc, List.append_assoc]
  exact (List.perm_append_comm_assoc _ _ _).append_left _

theorem append {g h : Gen} (hg : Linkable exit c (g c)) (hh : Linkable exit (g c).next (h (g c).next)) :
    Linkable exit c ((g ++ h) c) := by
  have hperm := all_append g h c
  have hnames := labelNames_perm hperm
  rw [labelNames_append] at hnames
  refine ⟨Nat.le_trans hg.functions hh.functions, Nat.le_trans hg.conditionals hh.conditionals, ?_, ?_,
    ?_, hg.relative.append hh.relative, ?_, ?_⟩
  · rw [hnames.nodup_iff, List.nodup_append]
    refine ⟨hg.distinct, hh.distinct, fun a ha b hb => ?_⟩
    rintro rfl
    exact (hg.numbered a ha).not_later (hh.numbered a hb)
  · intro name hname
    rcases List.mem_append.mp (hnames.mem_iff.mp hname) with hin | hin
    · exact (hg.numbered name hin).mono (Nat.le_refl _) (Nat.le_refl _) hh.functions hh.conditionals
    · exact (hh.numbered name hin).mono hg.functions hg.conditionals (Nat.le_refl _) (Nat.le_refl _)
  · intro i hi hmode
    rw [hnames.mem_iff, List.mem_append]
    rcases List.mem_append.mp (hperm.mem_iff.mp hi) with hin | hin
    · exact (hg.leads i hin hmode).imp_left .inl
    · exact (hh.leads i hin hmode).imp_left .inr
  · intro b hb
    rcases List.mem_append.mp hb with hb | hb
    · exact hg.bodies b hb
    · exact hh.bodies b hb
  · intro i hi
    rcases List.mem_append.mp (hperm.mem_iff.mp hi) with hin | hin
    · exact hg.literals i hin
    · exact hh.literals i hin

theorem jumpOver {op : Opcode} (hop : op ≠ .label) (hpush : op ≠ .push) {span : Span} {g : Gen}
    (hg : Linkable exit c (g c)) : Linkable exit c (Gen.jumpOver op span g c) := by
  have hlabel : Instruction.isLabel
      { op, mode := .relative, target := Int64.ofNat (Instruction.size (g c).code), span } = false := by
    simpa [Instruction.isLabel] using hop
  have hnames : labelNames (Gen.jumpOver op span g c).all = labelNames (g c).all :=
    labelNames_cons hlabel _
  refine ⟨hg.functions, hg.conditionals, hnames ▸ hg.distinct, hnames ▸ hg.numbered, ?_, ?_, hg.bodies,
    ?_⟩
  · rw [hnames]
    exact List.forall_mem_cons.mpr ⟨fun h => (by cases h), hg.leads⟩
  · exact ⟨fun _ => ⟨_, rfl, Nat.le_refl _⟩, hg.relative⟩
  · exact List.forall_mem_cons.mpr ⟨fun h => absurd h hpush, hg.literals⟩

theorem weaken {e : Emitted} (h : Linkable none c e) : Linkable exit c e :=
  { h with leads := fun i hi hmode => .inl ((h.leads i hi hmode).resolve_right fun h => nomatch h) }

theorem function {span : Span} {params : List Text} {body : Gen}
    (h : Linkable none { c with functions := c.functions + 1 }
      (body { c with functions := c.functions + 1 })) :
    Linkable exit c (Gen.function span params body c) := by
  let c' : Counters := { c with functions := c.functions + 1 }
  let code := (body ++ .instr { op := .return, span }) c'
  have hret : Linkable none c' code :=
    h.append (.instr rfl (by simp) (by simp) (by simp))
  have hall : (Gen.function span params body c).all =
      { op := .makeFunction, params, label := Gen.functionLabel c.functions, mode := .label, span } ::
        { op := .label, name := Gen.functionLabel c.functions } :: code.all := by
    show _ = _ :: _ :: (((body c').code ++ _) ++ ((body c').bodies ++ []).flatMap _)
    rw [List.append_nil]
    rfl
  have hnames : labelNames (Gen.function span params body c).all =
      Gen.functionLabel c.functions :: labelNames code.all := by
    rw [hall, labelNames_cons rfl, labelNames_cons_label rfl]
  have hfunctions : c.functions < code.next.functions := hret.functions
  refine ⟨Nat.le_of_lt hfunctions, hret.conditionals, ?_, ?_, ?_, ?_, ?_, ?_⟩
  · rw [hnames, List.nodup_cons]
    refine ⟨fun hin => ?_, hret.distinct⟩
    rcases hret.numbered _ hin with ⟨n, hlow, -, heq⟩ | ⟨n, -, -, heq⟩
    · have hn := Gen.functionLabel_injective heq
      have hle : c.functions + 1 ≤ n := hlow
      omega
    · exact Gen.functionLabel_ne_endLabel _ _ heq
  · rw [hnames]
    refine List.forall_mem_cons.mpr ⟨.inl ⟨_, Nat.le_refl _, hfunctions, rfl⟩, fun name hname => ?_⟩
    exact (hret.numbered name hname).mono (Nat.le_succ _) (Nat.le_refl _) (Nat.le_refl _)
      (Nat.le_refl _)
  · rw [hnames, hall]
    refine List.forall_mem_cons.mpr ⟨fun _ => .inl (List.mem_cons_self ..), ?_⟩
    refine List.forall_mem_cons.mpr ⟨fun hmode => (nomatch hmode), fun i hi hmode => .inl ?_⟩
    exact List.mem_cons_of_mem _ ((hret.leads i hi hmode).resolve_right fun h => nomatch h)
  · exact .cons (by simp) trivial
  · exact List.forall_mem_cons.mpr ⟨hret.relative, h.bodies⟩
  · rw [hall]
    refine List.forall_mem_cons.mpr ⟨fun hop => (nomatch hop), ?_⟩
    exact List.forall_mem_cons.mpr ⟨fun hop => (nomatch hop), hret.literals⟩

theorem withEnd {g : Text → Gen} {span : Span}
    (h : Linkable (some (Gen.endLabel (c.conditionals + 1)))
      { c with conditionals := c.conditionals + 1 }
      (g (Gen.endLabel (c.conditionals + 1)) { c with conditionals := c.conditionals + 1 })) :
    Linkable exit c ((Gen.withEnd fun label =>
      g label ++ .instr { op := .label, name := label, span }) c) := by
  let label := Gen.endLabel (c.conditionals + 1)
  let code := g label { c with conditionals := c.conditionals + 1 }
  let whole := (Gen.withEnd fun label => g label ++ .instr { op := .label, name := label, span }) c
  have hall : whole.all.Perm ({ op := .label, name := label, span } :: code.all) := by
    show ((code.code ++ [_]) ++ (code.bodies ++ []).flatMap _).Perm _
    rw [List.append_nil, List.append_assoc]
    exact List.perm_middle
  have hnames : (labelNames whole.all).Perm (label :: labelNames code.all) := labelNames_perm hall
  have hconditionals : c.conditionals < whole.next.conditionals := h.conditionals
  refine ⟨h.functions, Nat.le_of_lt hconditionals, ?_, ?_, ?_, ?_, ?_, ?_⟩
  · rw [hnames.nodup_iff, List.nodup_cons]
    refine ⟨fun hin => ?_, h.distinct⟩
    rcases h.numbered _ hin with ⟨n, -, -, heq⟩ | ⟨n, hlow, -, heq⟩
    · exact Gen.functionLabel_ne_endLabel _ _ heq.symm
    · have hn := Gen.endLabel_injective heq
      have hlt : c.conditionals + 1 < n := hlow
      omega
  · intro name hname
    rcases List.mem_cons.mp (hnames.mem_iff.mp hname) with rfl | hin
    · exact .inr ⟨_, Nat.lt_succ_self _, hconditionals, rfl⟩
    · exact (h.numbered name hin).mono (Nat.le_refl _) (Nat.le_succ _) (Nat.le_refl _) (Nat.le_refl _)
  · intro i hi hmode
    left
    rw [hnames.mem_iff]
    rcases List.mem_cons.mp (hall.mem_iff.mp hi) with rfl | hin
    · cases hmode
    · rcases h.leads i hin hmode with hname | hexit
      · exact List.mem_cons_of_mem _ hname
      · exact Option.some.inj hexit ▸ List.mem_cons_self ..
  · exact h.relative.append (.cons (by simp) trivial)
  · intro b hb
    exact h.bodies b ((List.mem_append.mp hb).resolve_right List.not_mem_nil)
  · intro i hi
    rcases List.mem_cons.mp (hall.mem_iff.mp hi) with rfl | hin
    · exact fun hop => nomatch hop
    · exact h.literals i hin

end Linkable

theorem Machine.Effect.plain {op : Opcode} {count : Int64} {σ τ : List Slot}
    (h : Machine.Effect op count σ τ) : op ≠ .label ∧ op ≠ .push := by
  cases h with
  | load hop => rcases hop with rfl | rfl <;> decide
  | keep hop => rcases hop with rfl | rfl <;> decide
  | binary hop => constructor <;> rintro rfl <;> cases hop
  | dup hop => subst hop; decide
  | pop hop => subst hop; decide
  | concat hop hn => subst hop; decide
  | call hop => subst hop; decide

theorem Gen.Typed.linkable {exit : Option (Text × List Slot)} {σ τ : List Slot} {g : Gen}
    (h : Gen.Typed exit σ τ g) (c : Counters) : Linkable (exit.map (·.1)) c (g c) := by
  induction h generalizing c with
  | nil => exact .nil
  | append _ _ ihg ihh => exact (ihg c).append (ihh _)
  | weaken _ ih => exact (ih c).weaken
  | push hv hs => exact .instr rfl (by simp) (fun h => by cases h) fun _ => ⟨_, hv⟩
  | instr hmode heffect =>
    obtain ⟨hlabel, hpush⟩ := heffect.plain
    refine .instr (by simpa [Instruction.isLabel] using hlabel) ?_ ?_ fun h => absurd h hpush
    · rw [hmode]
      decide
    · rw [hmode]
      exact fun h => by cases h
  | jumpOver stopOn span _ ih =>
    cases stopOn with
    | true => exact (ih c).jumpOver (by decide) (by decide)
    | false => exact (ih c).jumpOver (by decide) (by decide)
  | leave => exact .instr rfl (by simp) (fun _ => rfl) fun h => by cases h
  | function _ ih => exact .function (ih _)
  | withEnd _ ih => exact .withEnd (ih _ _)
  | withTemporary _ ih =>
    have h := ih (Gen.temporary (c.pipes + 1)) { c with pipes := c.pipes + 1 }
    exact ⟨h.functions, h.conditionals, h.distinct, h.numbered, h.leads, h.relative, h.bodies,
      h.literals⟩

/-! ## Linking -/

theorem labels_eq_ok (known : List (Text × Nat)) (n : Nat) {is : List Instruction}
    (hnew : ∀ name ∈ labelNames is, known.lookup name = none) (hdistinct : (labelNames is).Nodup) :
    ∃ table, labels known n is = .ok table ∧
      ∀ name ∈ labelNames is, ∃ k, table.lookup name = some k := by
  induction is generalizing known n with
  | nil => exact ⟨known, rfl, List.forall_mem_nil _⟩
  | cons i is ih =>
    rw [labels]
    cases hi : i.isLabel with
    | false =>
      rw [labelNames_cons hi] at hnew hdistinct ⊢
      exact ih known (n + 1) hnew hdistinct
    | true =>
      rw [labelNames_cons_label hi] at hnew hdistinct ⊢
      obtain ⟨hname, hrest⟩ := List.forall_mem_cons.mp hnew
      obtain ⟨hnotin, hdistinct⟩ := List.nodup_cons.mp hdistinct
      have hnew' : ∀ name ∈ labelNames is, ((i.name, n) :: known).lookup name = none := by
        intro name hin
        have hne : (name == i.name) = false := beq_false_of_ne fun h => hnotin (h ▸ hin)
        rw [List.lookup_cons, hne]
        exact hrest name hin
      obtain ⟨table, htable, hall⟩ := ih ((i.name, n) :: known) n hnew' hdistinct
      rw [if_pos rfl, hname, if_neg (by simp)]
      refine ⟨table, htable, List.forall_mem_cons.mpr ⟨⟨n, ?_⟩, hall⟩⟩
      exact Image.labels_known htable (by simp)

theorem resolve_eq_ok {table : List (Text × Nat)} {size n : Nat} {i : Instruction}
    (hlabel : i.mode = .label → ∃ k, table.lookup i.label = some k)
    (hrelative : i.mode = .relative → ∃ m, i.target = Int64.ofNat m ∧ n + 1 + m ≤ size)
    (hsmall : size < 2 ^ 63) : ∃ i', resolve table size n i = .ok i' := by
  unfold resolve
  split
  · exact ⟨_, rfl⟩
  · rename_i hmode
    obtain ⟨k, hk⟩ := hlabel hmode
    rw [hk]
    exact ⟨_, rfl⟩
  · rename_i hmode
    obtain ⟨m, ht, hm⟩ := hrelative hmode
    have hinside : ¬ (i.target < 0 ∨ Int64.ofNat size < Int64.ofNat (n + 1) + i.target) := by
      rw [ht, ← Int64.ofNat_add, Int64.lt_iff_toInt_lt, Int64.lt_iff_toInt_lt,
        Int64.toInt_ofNat_of_lt (by omega), Int64.toInt_ofNat_of_lt (by omega),
        Int64.toInt_ofNat_of_lt (by omega)]
      simp
      omega
    dsimp only
    rw [if_neg hinside]
    exact ⟨_, rfl⟩
  · exact ⟨_, rfl⟩
  · exact ⟨_, rfl⟩

theorem resolveAll_eq_ok {table : List (Text × Nat)} {size n : Nat} {is : List Instruction}
    (hlabels : ∀ i ∈ is, i.mode = .label → ∃ k, table.lookup i.label = some k)
    (hrelative : Relative is) (hsize : n + Instruction.size is ≤ size) (hsmall : size < 2 ^ 63) :
    ∃ is', resolveAll table size n is = .ok is' := by
  induction is generalizing n with
  | nil => exact ⟨[], rfl⟩
  | cons i is ih =>
    obtain ⟨hlabel, hlabels⟩ := List.forall_mem_cons.mp hlabels
    obtain ⟨hjump, hrelative⟩ := hrelative
    rw [resolveAll]
    cases hi : i.isLabel with
    | true =>
      rw [Image.size_cons_label hi] at hsize
      exact ih hlabels hrelative hsize
    | false =>
      rw [Image.size_cons hi] at hsize
      have hinside : i.mode = .relative → ∃ m, i.target = Int64.ofNat m ∧ n + 1 + m ≤ size := by
        intro hmode
        obtain ⟨m, ht, hm⟩ := hjump hmode
        exact ⟨m, ht, by omega⟩
      obtain ⟨i', hi'⟩ := resolve_eq_ok hlabel hinside hsmall
      obtain ⟨is', his'⟩ := ih (n := n + 1) hlabels hrelative (by omega)
      rw [if_neg (by simp), hi', his']
      exact ⟨_, rfl⟩

/-- What is generated for statements and the halt after them. -/
def Expr.emitted (es : List Expr) : Emitted :=
  (Expr.genStatements .zero es ++ Gen.instr { op := .halt }) {}

theorem Expr.linkable_emitted {es : List Expr} (h : Expr.AllSound es) :
    Linkable none {} (Expr.emitted es) :=
  ((Expr.typed_statements .zero es h []).linkable {}).append
    (.instr rfl (by simp) (by simp) fun h => nomatch h)

/-- A program that sound expressions are compiled to can be linked. -/
theorem Expr.link_compile {es : List Expr} (h : Expr.AllSound es) (source filename : Text)
    (hsmall : (Expr.compile source filename es).instructions.length < 2 ^ 63) :
    ∃ table is, labels [] 0 (Expr.emitted es).all = .ok table ∧
      resolveAll table (Instruction.size (Expr.emitted es).all) 0 (Expr.emitted es).all = .ok is ∧
      (Expr.compile source filename es).link =
        .ok { Expr.compile source filename es with instructions := is, linked := true } := by
  have hlink := Expr.linkable_emitted h
  have hle : Instruction.size (Expr.emitted es).all ≤ (Expr.emitted es).all.length :=
    List.countP_le_length
  have hsmall : (Expr.emitted es).all.length < 2 ^ 63 := hsmall
  obtain ⟨table, htable, hknown⟩ := labels_eq_ok [] 0 (fun _ _ => rfl) hlink.distinct
  have hlabels : ∀ i ∈ (Expr.emitted es).all, i.mode = .label →
      ∃ k, table.lookup i.label = some k := fun i hi hmode =>
    hknown _ ((hlink.leads i hi hmode).resolve_right fun h => nomatch h)
  obtain ⟨is, his⟩ := resolveAll_eq_ok (n := 0) hlabels
    (hlink.relative.append (.bodies hlink.bodies)) (Nat.le_of_eq (Nat.zero_add _)) (by omega)
  refine ⟨table, is, htable, his, ?_⟩
  have hall : (Expr.compile source filename es).instructions = (Expr.emitted es).all := rfl
  rw [Program.link, if_neg (by simp [Expr.compile]), hall, htable]
  dsimp only
  rw [his]

/-- There is a machine of every program that sound expressions are compiled to. -/
theorem Machine.ofProgram_compile {es : List Expr} (h : Expr.AllSound es) (source filename : Text)
    (hsmall : (Expr.compile source filename es).instructions.length < 2 ^ 63)
    (vars : List (Text × Value)) :
    ∃ m, Machine.ofProgram vars (Expr.compile source filename es) = .ok m := by
  obtain ⟨table, is, -, his, hprogram⟩ := Expr.link_compile h source filename hsmall
  have hvalues : ∀ i' ∈ is, i'.op = .push → ∃ v, Value.ofLiteral i'.value = .ok v := by
    intro i' hi' hop
    obtain ⟨i, hi, hkeeps⟩ := Image.mem_resolveAll his hi'
    rw [hkeeps.value]
    exact (Expr.linkable_emitted h).literals i hi (hkeeps.op ▸ hop)
  obtain ⟨values, hvalues⟩ := Image.constants_eq_ok (n := 0) hvalues
  rw [Machine.ofProgram, hprogram]
  dsimp only
  rw [hvalues]
  exact ⟨_, rfl⟩

end Bareword
