import Bareword.Token.Scan
import Mathlib

/-! # Where scanned text lies

How far blanks, runs of word characters and literals reach.

* `Text.next?_eq_some`: a rune covers some bytes of the text that it is read from.
* `skipBlank`: only blanks are skipped, and all of them.
* `runFrom_le`, `runFrom_name`: how far a run reaches, and what its text is if it looks like a name.
-/

namespace Bareword
set_option autoImplicit false

/-! ## Runes -/

theorem Text.decode_width_le (b : UInt8) (rest : Text) : (decode b rest).width ≤ rest.length + 1 := by
  unfold decode Rune.invalid
  repeat' split
  all_goals simp

/-- A rune covers some bytes at the front of the text that it is read from. -/
theorem Text.next?_eq_some {s rest : Text} {r : Rune} (h : s.next? = some (r, rest)) :
    rest = s.drop r.width ∧ 0 < r.width ∧ r.width ≤ s.length := by
  cases s with
  | nil => cases h
  | cons b tail =>
    rw [next?] at h
    obtain ⟨rfl, rfl⟩ := Prod.mk.inj (Option.some.inj h)
    exact ⟨rfl, decode_width_pos b tail, decode_width_le b tail⟩

theorem Text.next?_eq_none {s : Text} : s.next? = none ↔ s = [] := by
  cases s with
  | nil => exact ⟨fun _ => rfl, fun _ => rfl⟩
  | cons b tail => exact ⟨fun h => (nomatch h), fun h => (nomatch h)⟩

/-- An ASCII byte is a rune by itself. -/
theorem Text.next?_cons_ascii {b : UInt8} (hb : b < 0x80) (tail : Text) :
    Text.next? (b :: tail) = some (⟨b.toNat, 1⟩, tail) := by
  rw [next?, decode.eq_def, if_pos hb]
  rfl

/-- What more than one byte encodes is no ASCII character. -/
theorem Text.decode_of_small {b : UInt8} {rest : Text} (h : (decode b rest).code < 128) :
    decode b rest = ⟨b.toNat, 1⟩ := by
  unfold decode at h ⊢
  by_cases hb : b < 0x80
  · rw [if_pos hb]
  exfalso
  rw [if_neg hb] at h
  have hinvalid : ¬ Rune.invalid.code < 128 := by decide
  split at h
  · rename_i hrange
    have hlow : 0xC2 ≤ b.toNat ∧ b.toNat ≤ 0xDF := hrange
    cases rest with
    | nil => exact hinvalid h
    | cons c rest =>
      dsimp only at h
      split at h
      · dsimp only at h
        omega
      · exact hinvalid h
  split at h
  · rename_i hrange
    have hlow : 0xE0 ≤ b.toNat ∧ b.toNat ≤ 0xEF := hrange
    match rest with
    | [] | [_] => exact hinvalid h
    | c :: d :: rest =>
      dsimp only at h
      split at h
      · rename_i hcond
        simp only [isContinuation, Bool.and_eq_true, Bool.or_eq_true, bne_iff_ne,
          decide_eq_true_eq, UInt8.le_iff_toNat_le, ne_eq, ← UInt8.toNat_inj] at hcond
        simp only [payload] at h
        obtain ⟨⟨⟨hc, -⟩, hfirst⟩, -⟩ := hcond
        have hsecond : b.toNat = 0xE0 → 0xA0 ≤ c.toNat := fun he => hfirst.resolve_left fun hne => hne he
        have hc' : 0x80 ≤ c.toNat ∧ c.toNat ≤ 0xBF := hc
        by_cases he : b.toNat = 0xE0
        · have := hsecond he
          omega
        · omega
      · exact hinvalid h
  split at h
  · rename_i hrange
    have hlow : 0xF0 ≤ b.toNat ∧ b.toNat ≤ 0xF4 := hrange
    match rest with
    | [] | [_] | [_, _] => exact hinvalid h
    | c :: d :: e :: rest =>
      dsimp only at h
      split at h
      · rename_i hcond
        simp only [isContinuation, Bool.and_eq_true, Bool.or_eq_true, bne_iff_ne,
          decide_eq_true_eq, UInt8.le_iff_toNat_le, ne_eq, ← UInt8.toNat_inj] at hcond
        simp only [payload] at h
        obtain ⟨⟨⟨⟨hc, -⟩, -⟩, hfirst⟩, -⟩ := hcond
        have hsecond : b.toNat = 0xF0 → 0x90 ≤ c.toNat := fun he => hfirst.resolve_left fun hne => hne he
        have hc' : 0x80 ≤ c.toNat ∧ c.toNat ≤ 0xBF := hc
        by_cases he : b.toNat = 0xF0
        · have := hsecond he
          omega
        · omega
      · exact hinvalid h
  · exact hinvalid h

/-- The runes of a text up to some rest of it. -/
inductive Text.Spells : Text → List Rune → Text → Prop where
  | nil (s : Text) : Spells s [] s
  | cons {s t u : Text} {r : Rune} {rs : List Rune} (h : s.next? = some (r, t)) (hrest : Spells t rs u) :
      Spells s (r :: rs) u

theorem Text.Spells.snoc {s t u : Text} {r : Rune} {rs : List Rune} (h : Spells s rs t)
    (ht : t.next? = some (r, u)) : Spells s (rs ++ [r]) u := by
  induction h with
  | nil s => exact .cons ht (.nil u)
  | cons h _ ih => exact .cons h (ih ht)

theorem Text.Spells.length_eq {s u : Text} {rs : List Rune} (h : s.Spells rs u) :
    s.length = (rs.map (·.width)).sum + u.length := by
  induction h with
  | nil s => simp
  | cons h _ ih =>
    obtain ⟨rfl, -, hle⟩ := next?_eq_some h
    rw [List.length_drop] at ih
    rw [List.map_cons, List.sum_cons]
    omega

/-- A rune does not depend on what follows it. -/
theorem Text.decode_take (b : UInt8) (rest : Text) (k : Nat) (h : (decode b rest).width ≤ k + 1) :
    decode b (rest.take k) = decode b rest := by
  unfold decode Rune.invalid at h ⊢
  by_cases h₁ : b < 0x80
  · simp only [h₁, if_true]
  by_cases h₂ : 0xC2 ≤ b ∧ b ≤ 0xDF
  · simp only [h₁, h₂, and_self, if_true, if_false] at h ⊢
    rcases rest with _ | ⟨c, rest⟩ <;> rcases k with _ | k <;> simp_all
    split at h <;> simp_all
  by_cases h₃ : 0xE0 ≤ b ∧ b ≤ 0xEF
  · simp only [h₁, h₂, h₃, and_self, if_true, if_false] at h ⊢
    rcases rest with _ | ⟨c, _ | ⟨d, rest⟩⟩ <;> rcases k with _ | _ | k <;> simp_all
    all_goals split at h <;> simp_all
  by_cases h₄ : 0xF0 ≤ b ∧ b ≤ 0xF4
  · simp only [h₁, h₂, h₃, h₄, and_self, if_true, if_false] at h ⊢
    rcases rest with _ | ⟨c, _ | ⟨d, _ | ⟨e, rest⟩⟩⟩ <;> rcases k with _ | _ | _ | k <;> simp_all
    all_goals split at h <;> simp_all
  · simp only [h₁, h₂, h₃, h₄, if_false]

theorem Text.runes_of_next? {s t : Text} {r : Rune} (h : s.next? = some (r, t)) :
    s.runes = r :: t.runes := by
  rw [runes]
  split
  · rename_i hnone
    rw [h] at hnone
    cases hnone
  · rename_i hsome
    rw [h] at hsome
    obtain ⟨rfl, rfl⟩ := Prod.mk.inj (Option.some.inj hsome)
    rfl

/-- The runes that are spelled are those of the part that is read. -/
theorem Text.Spells.runes_eq {s u : Text} {rs : List Rune} (h : Spells s rs u) :
    ∃ front, s = front ++ u ∧ front.runes = rs := by
  induction h with
  | nil s =>
    refine ⟨[], rfl, ?_⟩
    rw [runes]
    rfl
  | @cons s t u r rs h _ ih =>
    obtain ⟨front, rfl, rfl⟩ := ih
    obtain ⟨ht, hpos, hle⟩ := next?_eq_some h
    refine ⟨s.take r.width ++ front, ?_, ?_⟩
    · rw [List.append_assoc, ht, List.take_append_drop]
    · refine runes_of_next? ?_
      -- The rune is read from the same bytes, whatever follows them.
      cases s with
      | nil => cases h
      | cons b tail =>
        rw [next?] at h
        obtain ⟨hr, htail⟩ := Prod.mk.inj (Option.some.inj h)
        obtain ⟨w, hw⟩ : ∃ w, r.width = w + 1 := ⟨r.width - 1, by omega⟩
        rw [hr, hw, List.drop_succ_cons] at htail
        rw [hw, List.take_succ_cons, List.cons_append, next?]
        have hsame : tail.take w ++ front = tail.take (w + front.length) := by
          rw [List.take_add, htail, List.take_append_of_le_length (Nat.le_refl _), List.take_length]
        have hdecode : decode b (tail.take w ++ front) = r := by
          rw [hsame, decode_take b tail _ (by rw [hr, hw]; omega), hr]
        rw [hdecode, hw, List.drop_succ_cons]
        congr 2
        have hlen : (tail.take w).length = w := by
          rw [List.length_take]
          rw [List.length_cons] at hle
          omega
        exact List.drop_left' hlen

namespace Token

/-! ## Blanks -/

/-- A byte that may stand between tokens. -/
def IsBlank (b : UInt8) : Prop :=
  b = Text.byte ' ' ∨ b = Text.byte '\t' ∨ b = Text.byte '\r' ∨ b = Text.byte '\n'

instance : DecidablePred IsBlank := fun _ => inferInstanceAs (Decidable (_ ∨ _))

theorem blankLength_le (keep : Bool) (s : Text) : blankLength keep s ≤ s.length := by
  induction s with
  | nil => exact Nat.le_refl _
  | cons b s ih =>
    rw [blankLength]
    split
    · exact Nat.succ_le_succ ih
    · exact Nat.zero_le _

theorem blankLength_mono (s : Text) : blankLength true s ≤ blankLength false s := by
  induction s with
  | nil => exact Nat.le_refl _
  | cons b s ih =>
    rw [blankLength, blankLength]
    split
    · rename_i h
      rw [if_pos (by simpa using Or.imp_right (Or.imp_right (Or.imp_right And.left)) h)]
      exact Nat.succ_le_succ ih
    · exact Nat.zero_le _

/-- All blanks are skipped in either case, unless the first that is kept is a line end. -/
theorem blankLength_eq {s : Text} (h : s[blankLength true s]? ≠ some (Text.byte '\n')) :
    blankLength true s = blankLength false s := by
  induction s with
  | nil => rfl
  | cons b s ih =>
    rw [blankLength] at h ⊢
    rw [blankLength]
    split at h
    · rename_i hblank
      rw [if_pos hblank, if_pos (by simpa using Or.imp_right (Or.imp_right (Or.imp_right And.left)) hblank), ih h]
    · rename_i hblank
      have hb : b ≠ Text.byte '\n' := by
        rintro rfl
        exact h rfl
      rw [if_neg hblank, if_neg fun hany =>
        hblank (hany.imp_right (Or.imp_right (Or.imp_right fun hline => absurd hline.1 hb)))]

theorem isBlank_of_lt_blankLength {keep : Bool} {s : Text} {k : Nat} (h : k < blankLength keep s)
    {b : UInt8} (hb : s[k]? = some b) : IsBlank b := by
  induction s generalizing k with
  | nil => cases hb
  | cons c s ih =>
    rw [blankLength] at h
    split at h
    · rename_i hc
      cases k with
      | zero =>
        cases hb
        exact hc.imp_right (Or.imp_right (Or.imp_right And.left))
      | succ k => exact ih (Nat.lt_of_succ_lt_succ h) hb
    · cases h

theorem not_blank_at_blankLength {keep : Bool} {s : Text} {b : UInt8} (hb : s[blankLength keep s]? = some b) :
    ¬ (b = Text.byte ' ' ∨ b = Text.byte '\t' ∨ b = Text.byte '\r' ∨ (b = Text.byte '\n' ∧ keep = false)) := by
  induction s with
  | nil => cases hb
  | cons c s ih =>
    rw [blankLength] at hb
    split at hb
    · exact ih hb
    · rename_i hc
      cases hb
      exact hc

theorem le_skipBlank (src : Text) (pos : Nat) (keep : Bool) : pos ≤ skipBlank src pos keep :=
  Nat.le_add_right _ _

theorem skipBlank_le {src : Text} {pos : Nat} (h : pos ≤ src.length) (keep : Bool) :
    skipBlank src pos keep ≤ src.length := by
  have hle := blankLength_le keep (src.drop pos)
  rw [List.length_drop] at hle
  rw [skipBlank]
  omega

theorem skipBlank_mono (src : Text) (pos : Nat) : skipBlank src pos true ≤ skipBlank src pos false :=
  Nat.add_le_add_left (blankLength_mono _) _

/-- Only blanks are skipped. -/
theorem isBlank_of_skipped {src : Text} {pos k : Nat} {keep : Bool} (hlow : pos ≤ k)
    (hhigh : k < skipBlank src pos keep) {b : UInt8} (hb : src[k]? = some b) : IsBlank b := by
  rw [skipBlank] at hhigh
  have hlt : k - pos < blankLength keep (src.drop pos) := by omega
  refine isBlank_of_lt_blankLength hlt ?_
  rw [List.getElem?_drop, Nat.add_sub_cancel' hlow]
  exact hb

/-! ## Runs -/

theorem runFrom_le (rule : RunRule) (whole : Text) (n : Nat) (name : Bool) (s : Text) :
    n ≤ (runFrom rule whole n name s).1 ∧ (runFrom rule whole n name s).1 ≤ n + s.length := by
  fun_induction runFrom rule whole n name s with
  | case4 n name s r rest h =>
    obtain ⟨-, -, hle⟩ := Text.next?_eq_some h
    exact ⟨Nat.le_add_right _ _, Nat.add_le_add_left hle n⟩
  | case5 n name s r rest h _ _ _ _ e rest' h' _ ih =>
    obtain ⟨rfl, -, hle⟩ := Text.next?_eq_some h
    obtain ⟨rfl, -, hle'⟩ := Text.next?_eq_some h'
    rw [List.length_drop] at ih hle'
    rw [List.length_drop] at ih
    omega
  | case9 n s r rest h _ _ _ _ _ _ _ ih | case11 n s r rest h _ _ _ _ _ _ _ _ ih
  | case12 n name s r rest h _ _ _ _ _ _ _ ih =>
    obtain ⟨rfl, -, hle⟩ := Text.next?_eq_some h
    rw [List.length_drop] at ih
    omega
  | _ => exact ⟨Nat.le_refl _, Nat.le_add_right _ _⟩

/-! ## Names -/

/-- The runes are those of a name, or there are none. -/
def NameRunes : List Rune → Prop
  | [] => True
  | r :: rs => isNameStart r.code = true ∧ ∀ x ∈ rs, isNameChar x.code = true

/-- The first `n` bytes look like a name, or there are none. -/
def NamePrefix (whole : Text) (n : Nat) : Prop :=
  ∃ rs : List Rune, NameRunes rs ∧ whole.Spells rs (whole.drop n) ∧ n = (rs.map (·.width)).sum

theorem isNameChar_of_isNameStart {c : Nat} (h : isNameStart c = true) : isNameChar c = true := by
  rw [isNameStart, Bool.or_eq_true] at h
  rw [isNameChar, Bool.or_eq_true, Bool.or_eq_true, Bool.or_eq_true]
  exact h.imp (fun h => .inl (.inl h)) id

/-- A character of a name goes on with a word and ends no part of one. -/
theorem plain_of_isNameChar {c : Nat} (h : isNameChar c = true) :
    isWordChar c = true ∧ c ≠ '\\'.toNat ∧ isSeparatorChar c = false ∧ c ≠ '='.toNat ∧ c ≠ '.'.toNat ∧
      isOperatorChar c = false := by
  have hrange : (97 ≤ c ∧ c ≤ 122) ∨ (48 ≤ c ∧ c ≤ 57) ∨ c = 45 ∨ 8192 ≤ c := by
    simp only [isNameChar, isLower, isDigit, isPictograph, pictographRanges, Bool.or_eq_true,
      Bool.and_eq_true, decide_eq_true_eq, beq_iff_eq, List.any_cons, List.any_nil] at h
    simp at h
    omega
  simp only [isWordChar, isSeparatorChar, isOperatorChar]
  simp
  omega

theorem NamePrefix.zero (whole : Text) : NamePrefix whole 0 := ⟨[], trivial, .nil _, rfl⟩

theorem NamePrefix.le {whole : Text} {n : Nat} (h : NamePrefix whole n) : n ≤ whole.length := by
  obtain ⟨rs, -, hspells, rfl⟩ := h
  have hlen := hspells.length_eq
  omega

theorem NamePrefix.step {whole rest : Text} {n : Nat} {r : Rune} (h : NamePrefix whole n)
    (hnext : Text.next? (whole.drop n) = some (r, rest))
    (hname : (if n = 0 then isNameStart r.code else isNameChar r.code) = true) :
    NamePrefix whole (n + r.width) := by
  obtain ⟨rs, hrs, hspells, hn⟩ := h
  obtain ⟨hrest, -, -⟩ := Text.next?_eq_some hnext
  refine ⟨rs ++ [r], ?_, ?_, by simp [hn]⟩
  · cases rs with
    | nil =>
      have hzero : n = 0 := hn
      rw [if_pos hzero] at hname
      exact ⟨hname, List.forall_mem_nil _⟩
    | cons first rs =>
      -- A rune that was read before it makes the offset positive.
      have hpos : n ≠ 0 := by
        cases hspells with
        | cons hfirst _ =>
          have hwidth := (Text.next?_eq_some hfirst).2.1
          rw [hn, List.map_cons, List.sum_cons]
          omega
      rw [if_neg hpos] at hname
      exact ⟨hrs.1, List.forall_mem_append.mpr ⟨hrs.2, List.forall_mem_singleton.mpr hname⟩⟩
  · rw [List.drop_drop] at hrest
    rw [← hrest]
    exact hspells.snoc hnext

theorem NamePrefix.isName {whole : Text} {n : Nat} (h : NamePrefix whole n) (hn : 0 < n) :
    Token.isName (whole.take n) = true := by
  have hle := h.le
  obtain ⟨rs, hrs, hspells, hwidth⟩ := h
  obtain ⟨front, hfront, hrunes⟩ := hspells.runes_eq
  have htake : whole.take n = front := by
    have hlen : front.length = n := by
      have := congrArg List.length hfront
      rw [List.length_append, List.length_drop] at this
      omega
    rw [hfront, List.take_left' hlen]
  rw [htake, Token.isName, hrunes]
  cases rs with
  | nil =>
    rw [hwidth] at hn
    exact absurd hn (Nat.lt_irrefl 0)
  | cons r rs =>
    simp only [Bool.and_eq_true, List.all_eq_true]
    exact ⟨⟨hrs.1, isNameChar_of_isNameStart hrs.1⟩, hrs.2⟩

/-- A run goes on after a character of a name. -/
theorem runFrom_nameChar (rule : RunRule) (whole : Text) {n : Nat} {s rest : Text} {r : Rune}
    (hnext : s.next? = some (r, rest))
    (hname : (if n = 0 then isNameStart r.code else isNameChar r.code) = true) :
    runFrom rule whole n true s = runFrom rule whole (n + r.width) true rest := by
  have hchar : isNameChar r.code = true := by
    split at hname
    · exact isNameChar_of_isNameStart hname
    · exact hname
  obtain ⟨hword, hslash, hsep, heq, hdot, hop⟩ := plain_of_isNameChar hchar
  have hsplits : ∀ lead, rule.splits lead r.code = false := by
    intro lead
    rw [RunRule.splits]
    cases rule.bound with
    | none => rfl
    | some b =>
      rw [hop, beq_false_of_ne hdot, Bool.and_false, Bool.or_false]
      rfl
  rw [runFrom]
  split
  · rename_i hnone
    rw [hnext] at hnone
    cases hnone
  · rename_i hsome
    rw [hnext] at hsome
    obtain ⟨rfl, rfl⟩ := Prod.mk.inj (Option.some.inj hsome)
    have hequals : (r.code == '='.toNat) = false := beq_false_of_ne heq
    simp only [hword, if_neg hslash, hsep, hsplits, hname, hequals, Bool.not_true, Bool.false_and,
      Bool.and_false, Bool.false_eq_true, if_false, if_true]

/-- The walk of a run does not end within a name. -/
theorem runFrom_namePrefix (rule : RunRule) {whole : Text} {n : Nat} (h : NamePrefix whole n) :
    run rule whole = runFrom rule whole n true (whole.drop n) := by
  have hwalk : ∀ (rs : List Rune) (k : Nat) (s u : Text), s.Spells rs u →
      (if k = 0 then NameRunes rs else ∀ x ∈ rs, isNameChar x.code = true) →
      runFrom rule whole k true s = runFrom rule whole (k + (rs.map (·.width)).sum) true u := by
    intro rs
    induction rs with
    | nil =>
      intro k s u hspells _
      cases hspells
      rfl
    | cons r rs ih =>
      intro k s u hspells hnames
      cases hspells with
      | @cons _ t _ _ _ hnext hrest =>
        have hwidth := (Text.next?_eq_some hnext).2.1
        have hhead : (if k = 0 then isNameStart r.code else isNameChar r.code) = true ∧
            ∀ x ∈ rs, isNameChar x.code = true := by
          split at hnames
          · rename_i hk
            rw [if_pos hk]
            exact hnames
          · rename_i hk
            rw [if_neg hk]
            exact List.forall_mem_cons.mp hnames
        have hpos : k + r.width ≠ 0 := by omega
        rw [runFrom_nameChar rule whole hnext hhead.1, ih (k + r.width) t u hrest (by
          rw [if_neg hpos]
          exact hhead.2), List.map_cons, List.sum_cons, Nat.add_assoc]
  obtain ⟨rs, hrs, hspells, hn⟩ := h
  rw [run, hwalk rs 0 whole _ hspells hrs, Nat.zero_add, ← hn]

theorem runFrom_word (rule : RunRule) (whole : Text) (n : Nat) (s : Text) :
    (runFrom rule whole n false s).2 = .word := by
  have hwalk : ∀ name, name = false → (runFrom rule whole n name s).2 = .word := by
    intro name hname
    fun_induction runFrom rule whole n name s with
    | case4 => rfl
    | case5 n name s r rest hnext _ _ _ _ e rest' hnext' _ ih => exact ih rfl
    | case12 n name s r rest hnext _ _ _ _ _ _ hname' ih => exact ih rfl
    | case7 | case8 => simp_all
    | case9 | case10 | case11 => cases hname
    | _ =>
      subst hname
      rfl
  exact hwalk false rfl

/-- A run that looks like a name is one, and it ends where the walk ends by itself. -/
theorem run_stops {rule : RunRule} {whole : Text} {m : Nat} {shape : Shape}
    (h : run rule whole = (m, shape)) (hshape : shape ≠ .word) :
    NamePrefix whole m ∧ runFrom rule whole m true (whole.drop m) = (m, shape) := by
  have hwalk : ∀ (n : Nat) (name : Bool) (s : Text), name = true → s = whole.drop n →
      NamePrefix whole n → runFrom rule whole n name s = (m, shape) → NamePrefix whole m := by
    intro n name s hname
    fun_induction runFrom rule whole n name s with
    | case4 =>
      intro _ _ hend
      exact absurd (Prod.mk.inj hend).2.symm hshape
    | case5 n name s r rest hnext _ _ _ _ e rest' hnext' =>
      intro _ _ hend
      have hword := runFrom_word rule whole (n + r.width + e.width) rest'
      rw [hend] at hword
      exact absurd hword hshape
    | case11 n s r rest =>
      intro _ _ hend
      have hword := runFrom_word rule whole (n + r.width) rest
      rw [hend] at hword
      exact absurd hword hshape
    | case12 n name s r rest hnext _ _ _ _ _ _ hname' =>
      exact absurd hname hname'
    | case9 n s r rest hnext _ _ _ _ hname' _ _ ih =>
      intro hs hfront hend
      rw [hs] at hnext
      refine ih rfl ?_ (hfront.step hnext hname') hend
      rw [(Text.next?_eq_some hnext).1, List.drop_drop]
    | _ =>
      intro _ hfront hend
      obtain ⟨rfl, -⟩ := Prod.mk.inj hend
      exact hfront
  have hfront := hwalk 0 true whole rfl rfl (.zero whole) h
  exact ⟨hfront, (runFrom_namePrefix rule hfront).symm.trans h⟩

end Token
end Bareword
