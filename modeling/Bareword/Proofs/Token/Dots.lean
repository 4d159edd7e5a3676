import Bareword.Proofs.Token.Tokens

/-! # Names before dots

Whether a name before a dot is a word or the base of a property access depends on whether it is bound,
and on nothing else.

* `Text.Spells.append`: a name reads the same whatever follows it.
* `Scanned.bound_of_beforeDot`: what stands before a dot is bound.
* `Scanned.not_bound_of_word`: a word does not start with a bound name and a dot.
-/

namespace Bareword
set_option autoImplicit false

/-! ## Names -/

/-- A byte that starts no encoding stands for itself only, so other runes do not depend on what follows. -/
theorem Text.decode_append {b : UInt8} {s : Text} (u : Text) (h : decode b s ≠ .invalid) :
    decode b (s ++ u) = decode b s := by
  unfold decode at h ⊢
  by_cases h₁ : b < 0x80
  · simp only [h₁, if_true]
  by_cases h₂ : 0xC2 ≤ b ∧ b ≤ 0xDF
  · rcases s with _ | ⟨c, s⟩
    · simp [h₁, h₂] at h
    · simp [h₁, h₂]
  by_cases h₃ : 0xE0 ≤ b ∧ b ≤ 0xEF
  · rcases s with _ | ⟨c, _ | ⟨d, s⟩⟩
    · simp [h₁, h₂, h₃] at h
    · simp [h₁, h₂, h₃] at h
    · simp [h₁, h₂, h₃]
  by_cases h₄ : 0xF0 ≤ b ∧ b ≤ 0xF4
  · rcases s with _ | ⟨c, _ | ⟨d, _ | ⟨e, s⟩⟩⟩
    · simp [h₁, h₂, h₃, h₄] at h
    · simp [h₁, h₂, h₃, h₄] at h
    · simp [h₁, h₂, h₃, h₄] at h
    · simp [h₁, h₂, h₃, h₄]
  · simp only [h₁, h₂, h₃, h₄, if_false]

theorem Text.next?_append {s t : Text} {r : Rune} (u : Text) (h : s.next? = some (r, t)) (hr : r ≠ .invalid) :
    (s ++ u).next? = some (r, t ++ u) := by
  obtain ⟨rfl, -, hle⟩ := next?_eq_some h
  cases s with
  | nil => cases h
  | cons b tail =>
    rw [next?] at h
    obtain ⟨hdecode, -⟩ := Prod.mk.inj (Option.some.inj h)
    rw [List.cons_append, next?, decode_append u (by rwa [hdecode]), hdecode, ← List.cons_append,
      List.drop_append_of_le_length hle]

namespace Token

theorem ne_invalid_of_isNameChar {r : Rune} (h : isNameChar r.code = true) : r ≠ .invalid := by
  rintro rfl
  revert h
  decide

theorem spells_append {s : Text} (h : ∀ r ∈ s.runes, isNameChar r.code = true) (u : Text) :
    (s ++ u).Spells s.runes u := by
  fun_induction Text.runes s with
  | case1 s hnext =>
    rw [Text.next?_eq_none.mp hnext]
    exact .nil u
  | case2 s r rest hnext _ ih =>
    obtain ⟨hr, hrest⟩ := List.forall_mem_cons.mp h
    exact .cons (Text.next?_append u hnext (ne_invalid_of_isNameChar hr)) (ih hrest)

theorem isName_runes {b : Text} (h : isName b = true) :
    NameRunes b.runes ∧ ∀ r ∈ b.runes, isNameChar r.code = true := by
  rw [isName] at h
  split at h
  · cases h
  · rename_i r rs hrunes
    simp only [Bool.and_eq_true, List.all_eq_true] at h
    rw [hrunes]
    exact ⟨⟨h.1.1, h.2⟩, List.forall_mem_cons.mpr ⟨h.1.2, h.2⟩⟩

/-- A name at the front of a text looks like one there. -/
theorem namePrefix_append {b : Text} (h : isName b = true) (u : Text) : NamePrefix (b ++ u) b.length := by
  obtain ⟨hname, hchars⟩ := isName_runes h
  have hspells := spells_append hchars u
  refine ⟨b.runes, hname, ?_, ?_⟩
  · rwa [List.drop_left]
  · have hlength := hspells.length_eq
    rw [List.length_append] at hlength
    omega

/-! ## Runs -/

theorem runFrom_ne_beforeDot (rule : RunRule) (whole : Text) (n k : Nat) (s : Text) :
    runFrom rule whole n false s ≠ (k, .beforeDot) := by
  intro h
  have hword := runFrom_word rule whole n s
  rw [h] at hword
  cases hword

theorem bound_of_splits {rule : RunRule} {lead : Text} {c : Nat} (h : rule.splits lead c = true) :
    ∃ isBound, rule.bound = some isBound ∧ isBound lead = true := by
  rw [RunRule.splits] at h
  split at h
  · cases h
  · rename_i isBound hbound
    rw [Bool.and_eq_true] at h
    exact ⟨isBound, hbound, h.2⟩

/-- A run that ends before a dot is a bound name. -/
theorem bound_of_run_beforeDot {rule : RunRule} {s : Text} {n : Nat} (h : run rule s = (n, .beforeDot)) :
    ∃ isBound, rule.bound = some isBound ∧ isBound (s.take n) = true := by
  obtain ⟨-, hstop⟩ := run_stops h Shape.noConfusion
  rw [runFrom] at hstop
  split at hstop
  · cases hstop
  rename_i r rest hnext
  by_cases hsplits : rule.splits (s.take n) r.code = true
  · exact bound_of_splits hsplits
  · -- Without the split the run would be a name, a word, or longer.
    exfalso
    have hwidth := (Text.next?_eq_some hnext).2.1
    have hlonger := (runFrom_le rule s (n + r.width) true rest).1
    have hnever := runFrom_ne_beforeDot rule s
    have hnot : rule.splits (s.take n) r.code = false := by simpa using hsplits
    simp only [hnot, Bool.and_false, Bool.false_eq_true, if_false, if_true] at hstop
    repeat' split at hstop
    all_goals grind

/-- A walk that goes on after a name and a dot has not found the name bound. -/
theorem not_bound_of_run_word {rule : RunRule} {b u : Text} {n : Nat} (hb : isName b = true)
    (h : run rule (b ++ Text.byte '.' :: u) = (n, .word)) {isBound : Text → Bool}
    (hbound : rule.bound = some isBound) : isBound b = false := by
  have hdot : Text.next? (Text.byte '.' :: u) = some (⟨'.'.toNat, 1⟩, u) := Text.next?_cons_ascii (by decide) u
  have hpos : 0 < b.length := by
    refine List.length_pos_iff.mpr ?_
    rintro rfl
    revert hb
    decide +kernel
  rw [runFrom_namePrefix rule (namePrefix_append hb _), List.drop_left, runFrom] at h
  split at h
  · cases h
  rename_i r rest hnext
  rw [hdot] at hnext
  obtain ⟨rfl, rfl⟩ := Prod.mk.inj (Option.some.inj hnext)
  by_contra hnot
  have hsplits : rule.splits b 46 = true := by
    rw [RunRule.splits, hbound]
    simpa using hnot
  simp [hsplits, hpos, isWordChar, isSeparatorChar] at h

/-! ## Tokens -/

section
variable {accept : KindSet} {names : Option (Text → Bool)} {bound : Text → Bool} {src s : Text} {pos n : Nat}
  {r : Rune} {tok : Token}

/-- What stands before a dot is bound. -/
theorem Scanned.bound_of_beforeDot (h : Scanned src pos accept (some bound) tok)
    (hk : tok.kind = .beforeDot) : bound tok.text = true := by
  cases h with
  | eof => cases hk
  | @token r rest k n hnext hclassified =>
    obtain rfl : k = .beforeDot := hk
    obtain ⟨isBound, hbound, htext⟩ := bound_of_run_beforeDot hclassified.run_beforeDot.2
    rw [ruleOf] at hbound
    dsimp only at hbound
    split at hbound
    · cases hbound
      rw [cut, Text.extract, Nat.add_sub_cancel_left]
      exact htext
    · cases hbound

/-- A word does not start with a bound name and a dot. -/
theorem Scanned.not_bound_of_word (h : Scanned src pos accept (some bound) tok) (hk : tok.kind = .word)
    (haccept : accept.has .word = true → accept.has .beforeDot = true) {b u : Text}
    (hb : isName b = true) (hs : src.drop tok.start = b ++ Text.byte '.' :: u) : bound b = false := by
  cases h with
  | eof => cases hk
  | @token r rest k n hnext hclassified =>
    obtain rfl : k = .word := hk
    obtain ⟨hrun, hword⟩ := hclassified.run_word
    have hfront : src.drop (skipBlank src pos (accept.has .newline)) = b ++ Text.byte '.' :: u := hs
    rw [hfront] at hrun
    refine not_bound_of_run_word hb hrun ?_
    rw [ruleOf, if_pos (haccept hword)]

end

end Token
end Bareword
