import Bareword.Proofs.Program.Linking
import Bareword.Program.OfTree

/-! # The regions of linked programs

A linked program is the main part and after it the bodies of the functions, each a region of its own.
Control leaves a region only by a call or at its last instruction.

* `Regular`: what generated code looks like before it is linked.
* `Program.Regions`: a linked program and its regions.
* `Program.link_regions`: every program of a tree can be linked, and has regions then.
-/

namespace Bareword
set_option autoImplicit false
open Program (resolve resolveAll labels)
open Machine (Slot)

/-! ## Labels of functions -/

/-- The labels of the functions that some instructions make. -/
def madeLabels (is : List Instruction) : List Text := (is.filter (·.op == .makeFunction)).map (·.label)

theorem madeLabels_append (is js : List Instruction) : madeLabels (is ++ js) = madeLabels is ++ madeLabels js := by
  rw [madeLabels, List.filter_append, List.map_append]
  rfl

theorem madeLabels_perm {is js : List Instruction} (h : is.Perm js) : (madeLabels is).Perm (madeLabels js) :=
  (h.filter _).map _

theorem madeLabels_cons {i : Instruction} (h : i.op ≠ .makeFunction) (is : List Instruction) :
    madeLabels (i :: is) = madeLabels is := by
  rw [madeLabels, List.filter_cons_of_neg (by simpa using h)]
  rfl

theorem mem_madeLabels {i : Instruction} {is : List Instruction} (hi : i ∈ is) (hop : i.op = .makeFunction) :
    i.label ∈ madeLabels is :=
  List.mem_map_of_mem (List.mem_filter.mpr ⟨hi, beq_iff_eq.mpr hop⟩)

/-- The labels of the functions with numbers from `a` on, up to `b`. -/
def functionLabels (a b : Nat) : List Text := (List.range' a (b - a)).map Gen.functionLabel

theorem functionLabels_append {a b c : Nat} (hab : a ≤ b) (hbc : b ≤ c) :
    functionLabels a b ++ functionLabels b c = functionLabels a c := by
  have hb : a + 1 * (b - a) = b := by omega
  have hc : b - a + (c - b) = c - a := by omega
  rw [functionLabels, functionLabels, functionLabels, ← List.map_append, ← hc, ← List.range'_append, hb]

theorem functionLabels_succ {a b : Nat} (h : a < b) :
    functionLabels a b = Gen.functionLabel a :: functionLabels (a + 1) b := by
  have hb : b - a = b - (a + 1) + 1 := by omega
  rw [functionLabels, hb, List.range'_succ, List.map_cons, functionLabels]

theorem functionLabels_self (a : Nat) : functionLabels a a = [] := by
  rw [functionLabels, Nat.sub_self]
  rfl

/-! ## Generated code -/

/-- The instruction leads to the next one, to another region or further on in its own. -/
def Instruction.Inner (i : Instruction) : Prop := ¬ (i.op = .halt ∨ i.op = .return)

/-- Jumps lead forward, to a label or over some instructions; at most `exit` stands elsewhere. -/
def Forward (exit : Option Text) : List Instruction → Prop
  | [] => True
  | i :: is =>
    (i.op.isJump = true →
      (i.mode = .relative ∧ ∃ n, i.target = Int64.ofNat n ∧ n ≤ Instruction.size is) ∨
        (i.mode = .label ∧ (i.label ∈ labelNames is ∨ exit = some i.label))) ∧ Forward exit is

namespace Forward
variable {exit : Option Text} {is js : List Instruction}

theorem cons {i : Instruction} (hi : i.op.isJump = false) (h : Forward exit is) : Forward exit (i :: is) :=
  ⟨fun hjump => Bool.noConfusion (hi.symm.trans hjump), h⟩

theorem append {exit' : Option Text} (hi : Forward exit is) (hj : Forward exit' js)
    (hexit : ∀ l, exit = some l → l ∈ labelNames js ∨ exit' = some l) : Forward exit' (is ++ js) := by
  induction is with
  | nil => exact hj
  | cons i is ih =>
    refine ⟨fun hjump => ?_, ih hi.2⟩
    change (_ ∧ ∃ n, _ ∧ n ≤ Instruction.size (is ++ js)) ∨ _ ∧ (i.label ∈ labelNames (is ++ js) ∨ _)
    rw [Image.size_append, labelNames_append, List.mem_append]
    rcases hi.1 hjump with ⟨hmode, n, ht, hn⟩ | ⟨hmode, hlabel | hlabel⟩
    · exact .inl ⟨hmode, n, ht, Nat.le_add_right_of_le hn⟩
    · exact .inr ⟨hmode, .inl (.inl hlabel)⟩
    · exact .inr ⟨hmode, (hexit _ hlabel).imp_left .inr⟩

theorem weaken (h : Forward none is) : Forward exit is := by
  have happend : Forward exit (is ++ []) := h.append trivial nofun
  rwa [List.append_nil] at happend

theorem jump {before after : List Instruction} {i : Instruction} (h : Forward none (before ++ i :: after))
    (hjump : i.op.isJump = true) :
    (i.mode = .relative ∧ ∃ n, i.target = Int64.ofNat n ∧ n ≤ Instruction.size after) ∨
      (i.mode = .label ∧ i.label ∈ labelNames after) := by
  induction before with
  | nil => exact (h.1 hjump).imp_right fun ⟨hmode, hlabel⟩ => ⟨hmode, hlabel.resolve_right nofun⟩
  | cons j before ih => exact ih h.2

end Forward

/-- A body returns at its end and nowhere before. -/
def Returns (code : List Instruction) : Prop :=
  ∃ inner last, code = inner ++ [last] ∧ last.op = .return ∧ (∀ i ∈ inner, i.Inner) ∧ Forward none inner

/-- Numbered code runs to its end, or leaves for the label of `exit`, and its functions are numbered in
the order of their bodies. -/
structure Regular (exit : Option Text) (c : Counters) (e : Emitted) : Prop where
  inner : ∀ i ∈ e.code, i.Inner
  forward : Forward exit e.code
  returns : ∀ b ∈ e.bodies, Returns b.code
  le : c.functions ≤ e.next.functions
  labels : e.bodies.map (·.label) = functionLabels c.functions e.next.functions
  made : (madeLabels e.all).Perm (e.bodies.map (·.label))
  modes : ∀ i ∈ e.all, i.op = .makeFunction → i.mode = .label

namespace Regular
variable {exit : Option Text} {c : Counters}

theorem nil : Regular exit c (Gen.nil c) where
  inner := List.forall_mem_nil _
  forward := trivial
  returns := List.forall_mem_nil _
  le := Nat.le_refl _
  labels := (functionLabels_self _).symm
  made := .nil
  modes := List.forall_mem_nil _

theorem instr {i : Instruction} (hinner : i.Inner) (hmake : i.op ≠ .makeFunction) (hforward : Forward exit [i]) :
    Regular exit c (Gen.instr i c) where
  inner := List.forall_mem_singleton.mpr hinner
  forward := hforward
  returns := List.forall_mem_nil _
  le := Nat.le_refl _
  labels := (functionLabels_self _).symm
  made := by
    change (madeLabels [i]).Perm []
    rw [madeLabels_cons hmake]
    exact .nil
  modes := List.forall_mem_singleton.mpr fun h => absurd h hmake

/-- Code after other code; labels that the first part leaves for may stand in the second one. -/
theorem append {exit' : Option Text} {g h : Gen} (hg : Regular exit c (g c))
    (hh : Regular exit' (g c).next (h (g c).next))
    (hexit : ∀ l, exit = some l → l ∈ labelNames (h (g c).next).code ∨ exit' = some l) :
    Regular exit' c ((g ++ h) c) := by
  have hperm := Linkable.all_append g h c
  have hmade := madeLabels_perm hperm
  rw [madeLabels_append] at hmade
  refine ⟨List.forall_mem_append.mpr ⟨hg.inner, hh.inner⟩, hg.forward.append hh.forward hexit,
    List.forall_mem_append.mpr ⟨hg.returns, hh.returns⟩, Nat.le_trans hg.le hh.le, ?_, ?_, fun i hi => ?_⟩
  · rw [Gen.append_apply, List.map_append, hg.labels, hh.labels]
    exact functionLabels_append hg.le hh.le
  · rw [Gen.append_apply, List.map_append]
    exact hmade.trans (hg.made.append hh.made)
  · rcases List.mem_append.mp (hperm.mem_iff.mp hi) with hi | hi
    · exact hg.modes i hi
    · exact hh.modes i hi

theorem weaken {e : Emitted} (h : Regular none c e) : Regular exit c e := { h with forward := h.forward.weaken }

theorem jumpOver {op : Opcode} (hop : op.isJump = true) {span : Span} {g : Gen} (hg : Regular exit c (g c)) :
    Regular exit c (Gen.jumpOver op span g c) := by
  have hne : ∀ op : Opcode, op.isJump = true → ¬ (op = .halt ∨ op = .return) ∧ op ≠ .makeFunction := by
    rintro op hop
    constructor
    · rintro (rfl | rfl) <;> cases hop
    · rintro rfl
      cases hop
  refine ⟨List.forall_mem_cons.mpr ⟨(hne op hop).1, hg.inner⟩, ⟨fun _ => ?_, hg.forward⟩, hg.returns, hg.le,
    hg.labels, ?_, List.forall_mem_cons.mpr ⟨fun h => absurd h (hne op hop).2, hg.modes⟩⟩
  · exact .inl ⟨rfl, _, rfl, Nat.le_refl _⟩
  · have hmade : madeLabels (Gen.jumpOver op span g c).all = madeLabels (g c).all := madeLabels_cons (hne op hop).2 _
    rw [hmade]
    exact hg.made

theorem function {span : Span} {params : List Text} {body : Gen}
    (h : Regular none { c with functions := c.functions + 1 } (body { c with functions := c.functions + 1 })) :
    Regular exit c (Gen.function span params body c) := by
  let a := body { c with functions := c.functions + 1 }
  have hlt : c.functions < a.next.functions := h.le
  have hreturn : madeLabels (a.code ++ [{ op := .return, span }] ++ a.bodies.flatMap Expr.placed) = madeLabels a.all := by
    rw [madeLabels_append, madeLabels_append, madeLabels_cons (by simp), Emitted.all, madeLabels_append]
    exact congrArg (· ++ _) (List.append_nil _)
  refine ⟨List.forall_mem_singleton.mpr (by simp [Instruction.Inner]), .cons rfl trivial, ?_, Nat.le_of_lt hlt,
    ?_, ?_, ?_⟩
  · exact List.forall_mem_cons.mpr ⟨⟨a.code, _, rfl, rfl, h.inner, h.forward⟩, h.returns⟩
  · change Gen.functionLabel c.functions :: a.bodies.map (·.label) = functionLabels c.functions a.next.functions
    rw [functionLabels_succ hlt, h.labels]
  · change (Gen.functionLabel c.functions :: madeLabels
      ({ op := .label, name := Gen.functionLabel c.functions } ::
        (a.code ++ [{ op := .return, span }] ++ a.bodies.flatMap Expr.placed))).Perm _
    rw [madeLabels_cons (by simp), hreturn]
    exact h.made.cons _
  · refine List.forall_mem_cons.mpr ⟨fun _ => rfl, List.forall_mem_cons.mpr ⟨fun hop => (by cases hop), ?_⟩⟩
    refine List.forall_mem_append.mpr
      ⟨List.forall_mem_append.mpr ⟨?_, List.forall_mem_singleton.mpr fun hop => by cases hop⟩, ?_⟩
    · exact fun i hi => h.modes i (List.mem_append_left _ hi)
    · exact fun i hi => h.modes i (List.mem_append_right _ hi)

end Regular

theorem Machine.Effect.straight {op : Opcode} {count : Int64} {σ τ : List Slot} (h : Machine.Effect op count σ τ) :
    op.isJump = false ∧ op ≠ .makeFunction := by
  cases h with
  | load hop => rcases hop with rfl | rfl <;> decide
  | keep hop => rcases hop with rfl | rfl <;> decide
  | @binary f _ hop =>
    cases op <;> first | decide | cases hop
  | dup hop => subst hop; decide
  | pop hop => subst hop; decide
  | concat hop hn => subst hop; decide
  | call hop => subst hop; decide

theorem Gen.Typed.regular {exit : Option (Text × List Slot)} {σ τ : List Slot} {g : Gen}
    (h : Gen.Typed exit σ τ g) (c : Counters) : Regular (exit.map (·.1)) c (g c) := by
  induction h generalizing c with
  | nil => exact .nil
  | append _ _ ihg ihh => exact (ihg c).append (ihh _) fun _ => .inr
  | weaken _ ih => exact (ih c).weaken
  | push => exact .instr (by simp [Instruction.Inner]) (by simp) (.cons rfl trivial)
  | instr _ heffect => exact .instr heffect.inner heffect.straight.2 (.cons heffect.straight.1 trivial)
  | jumpOver stopOn span _ ih =>
    cases stopOn with
    | true => exact (ih c).jumpOver rfl
    | false => exact (ih c).jumpOver rfl
  | leave =>
    refine .instr (by simp [Instruction.Inner]) (by simp) ⟨fun _ => .inr ⟨rfl, .inr rfl⟩, trivial⟩
  | function _ ih => exact .function (ih _)
  | @withEnd exit σ τ g span _ ih =>
    -- The label stands right after the code that leaves for it.
    let c' : Counters := { c with conditionals := c.conditionals + 1 }
    have hlabel : Regular (exit.map (·.1)) (g (endLabel (c.conditionals + 1)) c').next
        (Gen.instr { op := .label, name := endLabel (c.conditionals + 1), span }
          (g (endLabel (c.conditionals + 1)) c').next) :=
      .instr (by simp [Instruction.Inner]) (by simp) (.cons rfl trivial)
    have hwhole := (ih (endLabel (c.conditionals + 1)) c').append hlabel fun l hl => by
      cases hl
      exact .inl (List.mem_cons_self ..)
    exact { hwhole with }
  | withTemporary _ ih =>
    have h := ih (Gen.temporary (c.pipes + 1)) { c with pipes := c.pipes + 1 }
    exact { h with }

/-! ## Linking some instructions -/

/-- A label leads to the instruction after it. -/
theorem labels_lookup {known table : List (Text × Nat)} {n : Nat} {before after : List Instruction}
    {i : Instruction} (h : labels known n (before ++ i :: after) = .ok table) (hi : i.isLabel = true) :
    table.lookup i.name = some (n + Instruction.size before) := by
  induction before generalizing known n with
  | nil =>
    rw [List.nil_append, labels, if_pos hi] at h
    split at h
    · cases h
    · exact Image.labels_known h (by simp)
  | cons j before ih =>
    rw [List.cons_append, labels] at h
    cases hj : j.isLabel with
    | true =>
      rw [if_pos hj] at h
      rw [Image.size_cons_label hj]
      split at h
      · cases h
      · exact ih h
    | false =>
      rw [if_neg (by simp [hj])] at h
      rw [Image.size_cons hj, Nat.add_comm _ 1, ← Nat.add_assoc]
      exact ih h

section
variable {table : List (Text × Nat)} {size n : Nat} {is js ks : List Instruction}

theorem resolveAll_append (h : resolveAll table size n (is ++ js) = .ok ks) :
    ∃ is' js', ks = is' ++ js' ∧ resolveAll table size n is = .ok is' ∧
      resolveAll table size (n + Instruction.size is) js = .ok js' := by
  induction is generalizing n ks with
  | nil => exact ⟨[], ks, rfl, rfl, h⟩
  | cons i is ih =>
    rw [List.cons_append, resolveAll] at h
    rw [resolveAll]
    cases hi : i.isLabel with
    | true =>
      rw [if_pos hi] at h
      rw [if_pos rfl, Image.size_cons_label hi]
      exact ih h
    | false =>
      rw [if_neg (by simp [hi])] at h
      rw [if_neg (by simp), Image.size_cons hi]
      cases hlinked : resolve table size n i with
      | error e =>
        rw [hlinked] at h
        cases h
      | ok i' =>
        rw [hlinked] at h
        dsimp only at h
        cases hrest : resolveAll table size (n + 1) (is ++ js) with
        | error e =>
          rw [hrest] at h
          cases h
        | ok rest =>
          rw [hrest] at h
          cases h
          obtain ⟨is', js', rfl, his, hjs⟩ := ih hrest
          rw [his]
          refine ⟨i' :: is', js', rfl, rfl, ?_⟩
          rwa [Nat.add_comm _ 1, ← Nat.add_assoc]

/-- What a linked instruction was before. -/
theorem resolveAll_getElem? {j : Nat} {k : Instruction} (h : resolveAll table size n is = .ok ks)
    (hk : ks[j]? = some k) :
    ∃ before i after, is = before ++ i :: after ∧ Instruction.size before = j ∧ i.isLabel = false ∧
      resolve table size (n + j) i = .ok k := by
  induction is generalizing n j ks with
  | nil =>
    cases h
    cases hk
  | cons i is ih =>
    rw [resolveAll] at h
    cases hi : i.isLabel with
    | true =>
      rw [if_pos hi] at h
      obtain ⟨before, x, after, rfl, hsize, hx⟩ := ih h hk
      exact ⟨i :: before, x, after, rfl, (Image.size_cons_label hi _).trans hsize, hx⟩
    | false =>
      rw [if_neg (by simp [hi])] at h
      cases hlinked : resolve table size n i with
      | error e =>
        rw [hlinked] at h
        cases h
      | ok i' =>
        rw [hlinked] at h
        dsimp only at h
        cases hrest : resolveAll table size (n + 1) is with
        | error e =>
          rw [hrest] at h
          cases h
        | ok rest =>
          rw [hrest] at h
          cases h
          cases j with
          | zero =>
            cases hk
            exact ⟨[], i, is, rfl, rfl, hi, hlinked⟩
          | succ j =>
            obtain ⟨before, x, after, rfl, hsize, hlabel, hx⟩ := ih hrest hk
            refine ⟨i :: before, x, after, rfl, ?_, hlabel, ?_⟩
            · rw [Image.size_cons hi, hsize]
            · rwa [Nat.add_comm j 1, ← Nat.add_assoc]

theorem resolve_name {i k : Instruction} (h : resolve table size n i = .ok k) : k.label = i.label := by
  unfold resolve at h
  split at h
  · cases h
    rfl
  · split at h <;> cases h
    rfl
  · dsimp only at h
    split at h <;> cases h
    rfl
  · cases h
    rfl
  · cases h
    rfl

theorem resolveAll_madeLabels (h : resolveAll table size n is = .ok ks) : madeLabels ks = madeLabels is := by
  induction is generalizing n ks with
  | nil =>
    cases h
    rfl
  | cons i is ih =>
    have hsplit : resolveAll table size n ([i] ++ is) = .ok ks := h
    obtain ⟨first, rest, rfl, hfirst, hrest⟩ := resolveAll_append hsplit
    rw [madeLabels_append, ih hrest, ← List.singleton_append, madeLabels_append]
    refine congrArg (· ++ _) ?_
    rw [resolveAll] at hfirst
    split at hfirst
    · rename_i hlabel
      cases hfirst
      rw [madeLabels_cons]
      rw [eq_of_beq hlabel]
      exact Opcode.noConfusion
    · cases hlinked : resolve table size n i with
      | error e =>
        rw [hlinked] at hfirst
        cases hfirst
      | ok i' =>
        rw [hlinked] at hfirst
        cases hfirst
        rw [madeLabels, madeLabels, List.filter_cons, List.filter_cons, (Image.resolve_keeps hlinked).op]
        cases i.op == .makeFunction with
        | true => exact congrArg (fun l => [l]) (resolve_name hlinked)
        | false => rfl

end

/-! ## Regions -/

/-- The instructions end in one of an operation and neither halt nor return before. -/
def EndsIn (op : Opcode) (region : List Instruction) : Prop :=
  ∃ inner last, region = inner ++ [last] ∧ last.op = op ∧ ∀ i ∈ inner, i.Inner

/-- The jumps of a region that starts at an index lead forward, at most to its last instruction. -/
def JumpsWithin (start : Nat) (region : List Instruction) : Prop :=
  ∀ j i, region[j]? = some i → i.op.isJump = true →
    ∃ t, i.target = Int64.ofNat t ∧ start + j < t ∧ t < start + region.length

/-- Where the region with a number starts that is that of a function. -/
def regionStart (main : List Instruction) (bodies : List (List Instruction)) (k : Nat) : Nat :=
  main.length + (bodies.take k).flatten.length

/-- The regions of a linked program: the main part, and the bodies of the functions in order. -/
structure Program.Regions (q : Program) (main : List Instruction) (bodies : List (List Instruction)) : Prop where
  linked : q.linked = true
  instructions : q.instructions = main ++ bodies.flatten
  functions : q.functions = (List.range bodies.length).map Gen.functionLabel
  halts : EndsIn .halt main
  returns : ∀ b ∈ bodies, EndsIn .return b
  made : (madeLabels q.instructions).Perm q.functions
  enters : ∀ i ∈ q.instructions, i.op = .makeFunction → ∃ k < bodies.length,
    i.label = Gen.functionLabel k ∧ i.target = Int64.ofNat (regionStart main bodies k)
  main_jumps : JumpsWithin 0 main
  body_jumps : ∀ k b, bodies[k]? = some b → JumpsWithin (regionStart main bodies k) b

section
variable {table : List (Text × Nat)} {size n : Nat}

/-- What code that runs to its last instruction is linked to. -/
theorem endsIn_of_resolveAll {inner ks : List Instruction} {last : Instruction} (hinner : ∀ i ∈ inner, i.Inner)
    (hlast : last.isLabel = false) (h : resolveAll table size n (inner ++ [last]) = .ok ks) : EndsIn last.op ks := by
  obtain ⟨inner', ks', rfl, hinner', hks'⟩ := resolveAll_append h
  rw [resolveAll, if_neg (by simp [hlast])] at hks'
  cases hlinked : resolve table size (n + Instruction.size inner) last with
  | error e =>
    rw [hlinked] at hks'
    cases hks'
  | ok last' =>
    rw [hlinked] at hks'
    cases hks'
    refine ⟨inner', last', rfl, (Image.resolve_keeps hlinked).op, fun i hi => ?_⟩
    obtain ⟨j, hj, hkeeps⟩ := Image.mem_resolveAll hinner' hi
    rw [Instruction.Inner, hkeeps.op]
    exact hinner j hj

/-- Jumps that lead forward before linking do so afterwards. -/
theorem jumpsWithin_of_resolveAll {inner ks : List Instruction} {last : Instruction} (hforward : Forward none inner)
    (hlast : last.isLabel = false) (hstraight : last.op.isJump = false)
    (hknown : ∀ before l after, inner = before ++ l :: after → l.isLabel = true →
      table.lookup l.name = some (n + Instruction.size before))
    (h : resolveAll table size n (inner ++ [last]) = .ok ks) : JumpsWithin n ks := by
  intro j k hk hjump
  obtain ⟨before, i, after, hsplit, rfl, hlabel, hlinked⟩ := resolveAll_getElem? h hk
  rw [(Image.resolve_keeps hlinked).op] at hjump
  have hlength := Image.resolveAll_length h
  rcases List.append_eq_append_iff.mp hsplit with ⟨rest, hbefore, hrest⟩ | ⟨rest, hinner, hrest⟩
  · -- The last instruction is no jump.
    exfalso
    have hmem : i ∈ [last] := hrest ▸ List.mem_append_right _ (List.mem_cons_self ..)
    rw [List.mem_singleton.mp hmem, hstraight] at hjump
    cases hjump
  · cases rest with
    | nil =>
      exfalso
      have heq : i = last := (List.cons.inj hrest).1
      rw [heq, hstraight] at hjump
      cases hjump
    | cons x rest =>
      obtain ⟨rfl, rfl⟩ := List.cons.inj hrest
      subst hinner
      rw [Image.size_append, Image.size_append, Image.size_cons hlabel, Image.size_singleton hlast] at hlength
      rcases hforward.jump hjump with ⟨hmode, m, ht, hm⟩ | ⟨hmode, hname⟩
      · refine ⟨n + Instruction.size before + 1 + m, ?_, by omega, by omega⟩
        rw [(Image.resolve_relative hlinked hmode).1, ht, ← Int64.ofNat_add]
      · obtain ⟨l, hl, hlname⟩ := List.mem_map.mp hname
        obtain ⟨hlmem, hlLabel⟩ := List.mem_filter.mp hl
        obtain ⟨mid, after, rfl⟩ := List.append_of_mem hlmem
        have hlookup := hknown (before ++ i :: mid) l after (by simp) hlLabel
        obtain ⟨t, ht, htarget⟩ := Image.resolve_label hlinked hmode
        rw [← hlname, hlookup] at ht
        cases ht
        rw [Image.size_append, Image.size_cons hlabel] at htarget
        rw [Image.size_append, Image.size_cons_label hlLabel] at hlength
        exact ⟨_, htarget, by omega, by omega⟩

/-- Bodies are linked one after the other. -/
theorem resolveAll_bodies {bs : List Body} {ks : List Instruction}
    (h : resolveAll table size n (bs.flatMap Expr.placed) = .ok ks) :
    ∃ rs : List (List Instruction), ks = rs.flatten ∧ rs.length = bs.length ∧
      ∀ k b r, bs[k]? = some b → rs[k]? = some r →
        (rs.take k).flatten.length = Instruction.size ((bs.take k).flatMap Expr.placed) ∧
          resolveAll table size (n + (rs.take k).flatten.length) b.code = .ok r := by
  induction bs generalizing n ks with
  | nil =>
    cases h
    exact ⟨[], rfl, rfl, nofun⟩
  | cons b bs ih =>
    obtain ⟨r, rest, rfl, hr, hrest⟩ := resolveAll_append h
    obtain ⟨rs, rfl, hlength, hrs⟩ := ih hrest
    have hr' : resolveAll table size n b.code = .ok r := hr
    have hsize : r.length = Instruction.size (Expr.placed b) := Image.resolveAll_length hr
    refine ⟨r :: rs, rfl, congrArg (· + 1) hlength, fun k c x hc hx => ?_⟩
    cases k with
    | zero =>
      cases hc
      cases hx
      exact ⟨rfl, hr'⟩
    | succ k =>
      obtain ⟨hstart, hcode⟩ := hrs k c x hc hx
      rw [List.take_succ_cons, List.take_succ_cons, List.flatten_cons, List.flatMap_cons, List.length_append,
        Image.size_append, hsize, hstart]
      rw [hstart, Nat.add_assoc] at hcode
      exact ⟨rfl, hcode⟩

end

/-- Numbered code is linked to regions under a table of its labels. -/
structure Assembly (e : Emitted) (table : List (Text × Nat)) (main : List Instruction)
    (bodies : List (List Instruction)) : Prop where
  main_eq : resolveAll table (Instruction.size e.all) 0 e.code = .ok main
  length_eq : bodies.length = e.bodies.length
  body_eq : ∀ k b r, e.bodies[k]? = some b → bodies[k]? = some r →
    resolveAll table (Instruction.size e.all) (regionStart main bodies k) b.code = .ok r
  start_eq : ∀ k b r, e.bodies[k]? = some b → bodies[k]? = some r →
    regionStart main bodies k = Instruction.size (e.code ++ (e.bodies.take k).flatMap Expr.placed)
  labels_eq : labels [] 0 e.all = .ok table

theorem assembly_of_resolveAll {e : Emitted} {table : List (Text × Nat)} {is : List Instruction}
    (htable : labels [] 0 e.all = .ok table) (h : resolveAll table (Instruction.size e.all) 0 e.all = .ok is) :
    ∃ main bodies, is = main ++ bodies.flatten ∧ Assembly e table main bodies := by
  obtain ⟨main, rest, rfl, hmain, hrest⟩ := resolveAll_append h
  obtain ⟨bodies, rfl, hlength, hbodies⟩ := resolveAll_bodies hrest
  have hsize : main.length = Instruction.size e.code := Image.resolveAll_length hmain
  rw [Nat.zero_add, ← hsize] at hbodies
  refine ⟨main, bodies, rfl, hmain, hlength, fun k b r hb hr => (hbodies k b r hb hr).2, fun k b r hb hr => ?_, htable⟩
  rw [regionStart, Image.size_append, ← hsize, (hbodies k b r hb hr).1]

namespace Assembly
variable {e : Emitted} {table : List (Text × Nat)} {main : List Instruction} {bodies : List (List Instruction)}

theorem lookup (h : Assembly e table main bodies) {before after : List Instruction} {l : Instruction}
    (hall : e.all = before ++ l :: after) (hl : l.isLabel = true) :
    table.lookup l.name = some (Instruction.size before) := by
  have htable := h.labels_eq
  rw [hall] at htable
  have hfound := labels_lookup htable hl
  rwa [Nat.zero_add] at hfound

theorem body_of_region (h : Assembly e table main bodies) {k : Nat} {r : List Instruction} (hr : bodies[k]? = some r) :
    ∃ b, e.bodies[k]? = some b := by
  have hk : k < bodies.length := (List.getElem?_eq_some_iff.mp hr).1
  exact ⟨_, List.getElem?_eq_getElem (h.length_eq ▸ hk)⟩

theorem region_of_body (h : Assembly e table main bodies) {k : Nat} {b : Body} (hb : e.bodies[k]? = some b) :
    ∃ r, bodies[k]? = some r := by
  have hk : k < e.bodies.length := (List.getElem?_eq_some_iff.mp hb).1
  exact ⟨_, List.getElem?_eq_getElem (h.length_eq.symm ▸ hk)⟩

end Assembly

theorem Emitted.all_eq {e : Emitted} {k : Nat} {b : Body} (hb : e.bodies[k]? = some b) :
    ∃ after, e.all = (e.code ++ (e.bodies.take k).flatMap Expr.placed) ++
      { op := .label, name := b.label } :: (b.code ++ after) := by
  refine ⟨(e.bodies.drop (k + 1)).flatMap Expr.placed, ?_⟩
  have hparts : e.bodies = e.bodies.take k ++ b :: e.bodies.drop (k + 1) := by
    obtain ⟨hk, hget⟩ := List.getElem?_eq_some_iff.mp hb
    rw [← hget, ← List.drop_eq_getElem_cons hk, List.take_append_drop]
  rw [Emitted.all]
  conv_lhs => rw [hparts]
  rw [List.flatMap_append, List.flatMap_cons, Expr.placed, List.append_assoc, List.cons_append]

/-- A whole program: it halts at the end of its main part, its functions are numbered in order, and each
is made once. -/
structure Regular.Whole (e : Emitted) : Prop where
  code : ∃ inner, e.code = inner ++ [{ op := .halt }] ∧ (∀ i ∈ inner, i.Inner) ∧ Forward none inner
  returns : ∀ b ∈ e.bodies, Returns b.code
  labels : e.bodies.map (·.label) = (List.range e.bodies.length).map Gen.functionLabel
  made : (madeLabels e.all).Perm (e.bodies.map (·.label))
  modes : ∀ i ∈ e.all, i.op = .makeFunction → i.mode = .label

theorem Expr.whole_emitted {es : List Expr} (h : Expr.AllSound es) : Regular.Whole (Expr.emitted es) := by
  have hstatements := (Expr.typed_statements .zero es h []).regular {}
  let e := Expr.genStatements .zero es {}
  have hbodies : (Expr.emitted es).bodies = e.bodies := List.append_nil _
  have hlabels := hstatements.labels
  have hcount : e.bodies.length = e.next.functions - 0 := by
    have := congrArg List.length hlabels
    rwa [List.length_map, functionLabels, List.length_map, List.length_range'] at this
  refine ⟨⟨e.code, rfl, hstatements.inner, hstatements.forward⟩, hbodies ▸ hstatements.returns, ?_, ?_, fun i hi => ?_⟩
  · rw [hbodies, hcount, List.range_eq_range']
    exact hlabels
  · have hmade : madeLabels (Expr.emitted es).all = madeLabels e.all := by
      rw [Emitted.all, Emitted.all, hbodies]
      change madeLabels (e.code ++ [{ op := .halt }] ++ _) = _
      rw [madeLabels_append, madeLabels_append, madeLabels_append, madeLabels_cons (by simp)]
      exact congrArg (· ++ _) (List.append_nil _)
    rw [hmade, hbodies]
    exact hstatements.made
  · rw [Emitted.all, hbodies] at hi
    rcases List.mem_append.mp hi with hi | hi
    · rcases List.mem_append.mp hi with hi | hi
      · exact hstatements.modes i (List.mem_append_left _ hi)
      · rw [List.mem_singleton.mp hi]
        exact fun hop => by cases hop
    · exact hstatements.modes i (List.mem_append_right _ hi)

namespace Assembly
variable {e : Emitted} {table : List (Text × Nat)} {main : List Instruction} {bodies : List (List Instruction)}

theorem halts (h : Assembly e table main bodies) (hwhole : Regular.Whole e) : EndsIn .halt main := by
  obtain ⟨inner, hcode, hinner, -⟩ := hwhole.code
  have hmain := h.main_eq
  rw [hcode] at hmain
  exact endsIn_of_resolveAll hinner rfl hmain

theorem returns (h : Assembly e table main bodies) (hwhole : Regular.Whole e) {r : List Instruction} (hr : r ∈ bodies) :
    EndsIn .return r := by
  obtain ⟨k, hk⟩ := List.getElem?_of_mem hr
  obtain ⟨b, hb⟩ := h.body_of_region hk
  obtain ⟨inner, last, hcode, hlast, hinner, -⟩ := hwhole.returns b (List.mem_of_getElem? hb)
  have hbody := h.body_eq k b r hb hk
  rw [hcode] at hbody
  have hends := endsIn_of_resolveAll hinner (by simp [Instruction.isLabel, hlast]) hbody
  rwa [hlast] at hends

theorem entry (h : Assembly e table main bodies) {k : Nat} {b : Body} (hb : e.bodies[k]? = some b) :
    table.lookup b.label = some (regionStart main bodies k) := by
  obtain ⟨r, hr⟩ := h.region_of_body hb
  obtain ⟨after, hall⟩ := Emitted.all_eq hb
  rw [h.start_eq k b r hb hr]
  exact h.lookup hall rfl

/-- Functions are made of the regions with their numbers. -/
theorem enters (h : Assembly e table main bodies) (hwhole : Regular.Whole e)
    (hlinked : resolveAll table (Instruction.size e.all) 0 e.all = .ok (main ++ bodies.flatten)) {i' : Instruction}
    (hi' : i' ∈ main ++ bodies.flatten) (hop : i'.op = .makeFunction) :
    ∃ k < bodies.length, i'.label = Gen.functionLabel k ∧ i'.target = Int64.ofNat (regionStart main bodies k) := by
  obtain ⟨j, hj⟩ := List.getElem?_of_mem hi'
  obtain ⟨before, i, after, hall, -, -, hres⟩ := resolveAll_getElem? hlinked hj
  have hi : i ∈ e.all := hall.symm ▸ List.mem_append_right _ (List.mem_cons_self ..)
  have hmake : i.op = .makeFunction := (Image.resolve_keeps hres).op ▸ hop
  obtain ⟨t, ht, htarget⟩ := Image.resolve_label hres (hwhole.modes i hi hmake)
  obtain ⟨b, hb, hlabel⟩ := List.mem_map.mp (hwhole.made.mem_iff.mp (mem_madeLabels hi hmake))
  obtain ⟨k, hk⟩ := List.getElem?_of_mem hb
  have hsmall : k < e.bodies.length := (List.getElem?_eq_some_iff.mp hk).1
  have hnumber : b.label = Gen.functionLabel k := by
    have hnth : (e.bodies.map (·.label))[k]? = some b.label := by rw [List.getElem?_map, hk]; rfl
    rw [hwhole.labels, List.getElem?_map, List.getElem?_range hsmall] at hnth
    exact (Option.some.inj hnth).symm
  rw [← hlabel, h.entry hk] at ht
  cases ht
  exact ⟨k, h.length_eq.symm ▸ hsmall, (resolve_name hres).trans (hlabel.symm.trans hnumber), htarget⟩

theorem main_jumps (h : Assembly e table main bodies) (hwhole : Regular.Whole e) : JumpsWithin 0 main := by
  obtain ⟨inner, hcode, -, hforward⟩ := hwhole.code
  have hmain := h.main_eq
  rw [hcode] at hmain
  refine jumpsWithin_of_resolveAll hforward rfl rfl (fun before l after hin hl => ?_) hmain
  have hall : e.all = before ++ l :: (after ++ [{ op := .halt }] ++ e.bodies.flatMap Expr.placed) := by
    rw [Emitted.all, hcode, hin]
    simp
  rw [Nat.zero_add]
  exact h.lookup hall hl

theorem body_jumps (h : Assembly e table main bodies) (hwhole : Regular.Whole e) {k : Nat} {r : List Instruction}
    (hr : bodies[k]? = some r) : JumpsWithin (regionStart main bodies k) r := by
  obtain ⟨b, hb⟩ := h.body_of_region hr
  obtain ⟨inner, last, hcode, hlast, -, hforward⟩ := hwhole.returns b (List.mem_of_getElem? hb)
  have hbody := h.body_eq k b r hb hr
  have hstart := h.start_eq k b r hb hr
  rw [hcode] at hbody
  have hstraight : last.op.isJump = false := by rw [hlast]; rfl
  refine jumpsWithin_of_resolveAll hforward (by simp [Instruction.isLabel, hlast]) hstraight
    (fun before l after hin hl => ?_) hbody
  obtain ⟨rest, hall⟩ := Emitted.all_eq hb
  have hbefore : e.all = (e.code ++ (e.bodies.take k).flatMap Expr.placed ++
      { op := .label, name := b.label } :: before) ++ l :: (after ++ last :: rest) := by
    rw [hall, hcode, hin]
    simp
  rw [h.lookup hbefore hl, Image.size_append, Image.size_cons_label rfl, ← hstart]

end Assembly

/-! ## Programs of trees -/

/-- Every program of a tree can be linked. It has a region for each function then, in the order of their
labels, and every jump leads forward within its region. -/
theorem Program.link_regions {source filename : Text} {tree : Option Tree.Node} {p : Program}
    (h : Program.ofTree source filename tree = .ok p) (hsmall : p.instructions.length < 2 ^ 63) :
    ∃ q main bodies, p.link = .ok q ∧ q.functions = p.functions ∧ q.Regions main bodies := by
  obtain _ | n := tree
  · cases h
  obtain ⟨es, hes, rfl⟩ := Program.ofTree_eq_ok h
  have hsound := Expr.allSound_of_ofProgram hes
  obtain ⟨table, is, htable, his, hprogram⟩ := Expr.link_compile hsound source filename hsmall
  obtain ⟨main, bodies, rfl, hassembly⟩ := assembly_of_resolveAll htable his
  have hwhole := Expr.whole_emitted hsound
  have hlabels : (Expr.emitted es).bodies.map (·.label) = (List.range bodies.length).map Gen.functionLabel := by
    rw [hwhole.labels, hassembly.length_eq]
  refine ⟨_, main, bodies, hprogram, rfl, ?_⟩
  exact {
    linked := rfl
    instructions := rfl
    functions := hlabels
    halts := hassembly.halts hwhole
    returns := fun _ hb => hassembly.returns hwhole hb
    made := by
      change (madeLabels (main ++ bodies.flatten)).Perm ((Expr.emitted es).bodies.map (·.label))
      rw [resolveAll_madeLabels his]
      exact hwhole.made
    enters := fun _ hi hop => hassembly.enters hwhole his hi hop
    main_jumps := hassembly.main_jumps hwhole
    body_jumps := fun _ _ hb => hassembly.body_jumps hwhole hb }

/-- A function that gives back its argument, by hand. -/
theorem Program.link_regions_function :
    let name : Tree.Node := { kind := .identifier, span := ⟨0, 1⟩, text := "x" }
    let function := Tree.Node.branch .functionDef [.branch .params [name], name]
    let p := Expr.compile [] [] [.function ⟨0, 1⟩ ["x"] [.name ⟨0, 1⟩ "x"]]
    (Program.ofTree [] [] (some (.branch .program [function])) = .ok p ∧ p.instructions.length < 2 ^ 63) ∧
      ∃ q main bodies, p.link = .ok q ∧ q.functions = p.functions ∧ q.Regions main bodies := by
  intro name function p
  have h : Program.ofTree [] [] (some (.branch .program [function])) = .ok p := rfl
  have hsmall : p.instructions.length < 2 ^ 63 := by decide
  exact ⟨⟨h, hsmall⟩, Program.link_regions h hsmall⟩

end Bareword
