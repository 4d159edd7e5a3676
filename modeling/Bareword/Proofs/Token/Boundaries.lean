import Bareword.Proofs.Token.Tokens

/-! # Between runes

A token starts and stops between two runes of the source when the offset that it is asked for lies there,
whether the source is valid UTF-8 or not: what the scanner walks rune by rune ends between runes, and what it
looks for byte by byte are ASCII characters, which no longer encoding contains.

* `Text.Boundary`: an offset between two runes.
* `Text.Boundary.runeCount_append`: texts that meet between two runes have their runes apart.
* `Text.boundary_of_ascii`: an ASCII character is a rune by itself, wherever it is.
* `Scanned.boundary`: the ends of a token.
-/

namespace Bareword
set_option autoImplicit false

namespace Text

/-- The offset `n` lies before, between or after the runes of a text. -/
def Boundary (s : Text) (n : Nat) : Prop := n ≤ s.length ∧ ∃ rs, s.Spells rs (s.drop n)

variable {s t u rest : Text} {n m : Nat} {r : Rune} {b : UInt8}

theorem Spells.append {rs rs' : List Rune} (h : s.Spells rs t) (h' : t.Spells rs' u) : s.Spells (rs ++ rs') u := by
  induction h with
  | nil s => exact h'
  | cons hnext _ ih => exact .cons hnext (ih h')

theorem Boundary.zero (s : Text) : s.Boundary 0 := ⟨Nat.zero_le _, [], .nil s⟩

theorem Boundary.add (h : s.Boundary n) (h' : Boundary (s.drop n) m) : s.Boundary (n + m) := by
  obtain ⟨hle, rs, hspells⟩ := h
  obtain ⟨hle', rs', hspells'⟩ := h'
  rw [List.drop_drop] at hspells'
  rw [List.length_drop] at hle'
  exact ⟨by omega, rs ++ rs', hspells.append hspells'⟩

theorem boundary_of_next? (h : s.next? = some (r, rest)) : s.Boundary r.width := by
  obtain ⟨hrest, -, hle⟩ := next?_eq_some h
  exact ⟨hle, [r], .cons h (hrest ▸ .nil _)⟩

theorem Boundary.step (h : s.Boundary n) (hnext : next? (s.drop n) = some (r, rest)) : s.Boundary (n + r.width) :=
  h.add (boundary_of_next? hnext)

theorem boundary_length (s : Text) : s.Boundary s.length := by
  have hall : ∃ rs, s.Spells rs [] := by
    induction hn : s.length using Nat.strongRecOn generalizing s with
    | ind n ih =>
      cases hnext : s.next? with
      | none => exact ⟨[], next?_eq_none.mp hnext ▸ .nil _⟩
      | some found =>
        obtain ⟨rs, hrs⟩ := ih _ (hn ▸ length_lt_of_next? hnext) found.2 rfl
        exact ⟨found.1 :: rs, .cons hnext hrs⟩
  obtain ⟨rs, hrs⟩ := hall
  exact ⟨Nat.le_refl _, rs, by rwa [List.drop_length]⟩

/-! ## Parts of texts -/

section
variable {front part back : Text} {rs rs' : List Rune}

theorem Spells.runes_append (h : s.Spells rs t) : s.runes = rs ++ t.runes := by
  induction h with
  | nil s => rfl
  | cons hnext _ ih => rw [runes_of_next? hnext, ih, List.cons_append]

/-- Of two walks through a text, the longer one goes on where the shorter one ends. -/
theorem Spells.onward (h : s.Spells rs t) (h' : s.Spells rs' u) (hle : u.length ≤ t.length) :
    ∃ more, t.Spells more u := by
  induction h generalizing rs' with
  | nil s => exact ⟨rs', h'⟩
  | @cons s t' t r rs hnext hrest ih =>
    cases h' with
    | nil =>
      have hlength := hrest.length_eq
      have hshorter := length_lt_of_next? hnext
      omega
    | cons hnext' hrest' =>
      rw [hnext] at hnext'
      obtain ⟨rfl, rfl⟩ := Prod.mk.inj (Option.some.inj hnext')
      exact ih hrest' hle

/-- A walk does not depend on what follows where it ends. -/
theorem Spells.of_append (h : (s ++ back).Spells rs (u ++ back)) : s.Spells rs u := by
  generalize hwhole : s ++ back = whole at h
  generalize hend : u ++ back = rest at h
  induction h generalizing s with
  | nil whole =>
    rw [← hend, List.append_left_inj] at hwhole
    exact hwhole ▸ .nil u
  | @cons whole next rest r rs hnext hrest ih =>
    subst hwhole
    obtain ⟨hdrop, hpos, hwidth⟩ := next?_eq_some hnext
    have hlength := hrest.length_eq
    rw [← hend, List.length_append, hdrop, List.length_drop, List.length_append] at hlength
    have hle : r.width ≤ s.length := by
      rw [List.length_append] at hwidth
      omega
    cases s with
    | nil => exact absurd hle (Nat.not_le.mpr hpos)
    | cons b tail =>
      rw [List.cons_append, next?] at hnext
      obtain ⟨hr, -⟩ := Prod.mk.inj (Option.some.inj hnext)
      have hsame : decode b tail = r := by
        have htake := decode_take b (tail ++ back) tail.length (by rw [hr]; exact hle)
        rwa [List.take_left, hr] at htake
      refine .cons (t := (b :: tail).drop r.width) ?_ (ih ?_ hend)
      · rw [next?, hsame]
      · rw [hdrop, List.drop_append_of_le_length hle]

/-- What lies between two runes of a text also does in a part of it that starts between two of them. -/
theorem Boundary.of_part (h : (front ++ (part ++ back)).Boundary front.length)
    (h' : (front ++ (part ++ back)).Boundary (front.length + n)) (hn : n ≤ part.length) : part.Boundary n := by
  obtain ⟨-, rs, hrs⟩ := h
  obtain ⟨-, rs', hrs'⟩ := h'
  rw [List.drop_left] at hrs
  rw [List.drop_length_add_append, List.drop_append_of_le_length hn] at hrs'
  obtain ⟨more, hmore⟩ := hrs.onward hrs' (by simp)
  exact ⟨hn, more, hmore.of_append⟩

/-- Texts that meet between two runes have their runes apart. -/
theorem Boundary.runeCount_append (h : (front ++ back).Boundary front.length) :
    (front ++ back).runeCount = front.runeCount + back.runeCount := by
  obtain ⟨-, rs, hrs⟩ := h
  rw [List.drop_left] at hrs
  obtain ⟨lead, hlead, hrunes⟩ := hrs.runes_eq
  rw [List.append_left_inj] at hlead
  rw [runeCount, hrs.runes_append, List.length_append, ← hrunes, ← hlead]
  rfl

theorem runeCount_pos (h : s ≠ []) : 0 < s.runeCount := by
  cases hnext : s.next? with
  | none => exact absurd (next?_eq_none.mp hnext) h
  | some found =>
    rw [runeCount, runes_of_next? hnext]
    exact Nat.zero_lt_succ _

end

/-! ## ASCII characters -/

/-- The bytes of a rune after its first one are no ASCII characters. -/
theorem not_ascii_of_lt_width {c : UInt8} (h : n + 1 < (decode b s).width) (hc : s[n]? = some c) : ¬ c < 0x80 := by
  have hcontinues {c : UInt8} (hc : isContinuation c = true) : ¬ c < 0x80 := by
    rw [isContinuation, Bool.and_eq_true, decide_eq_true_eq] at hc
    exact UInt8.not_lt.mpr hc.1
  unfold decode at h
  repeat' split at h
  all_goals simp only [Rune.invalid] at h
  all_goals try omega
  · rename_i hfirst
    obtain rfl : n = 0 := by omega
    cases hc
    exact hcontinues hfirst
  all_goals
    rename_i hcond
    simp only [Bool.and_eq_true] at hcond
  · obtain ⟨⟨⟨hfirst, hsecond⟩, -⟩, -⟩ := hcond
    rcases n with _ | _ | n
    · cases hc
      exact hcontinues hfirst
    · cases hc
      exact hcontinues hsecond
    · omega
  · obtain ⟨⟨⟨⟨hfirst, hsecond⟩, hthird⟩, -⟩, -⟩ := hcond
    rcases n with _ | _ | _ | n
    · cases hc
      exact hcontinues hfirst
    · cases hc
      exact hcontinues hsecond
    · cases hc
      exact hcontinues hthird
    · omega

/-- No rune contains an ASCII character besides that character itself. -/
theorem boundary_of_ascii (hb : s[n]? = some b) (hascii : b < 0x80) : s.Boundary n := by
  induction n using Nat.strongRecOn generalizing s with
  | ind n ih =>
    cases s with
    | nil => cases hb
    | cons first tail =>
      cases n with
      | zero => exact .zero _
      | succ n =>
        have hnext : next? (first :: tail) = some (decode first tail, (first :: tail).drop (decode first tail).width) := rfl
        have hwidth := decode_width_pos first tail
        have hle : (decode first tail).width ≤ n + 1 := by
          by_contra hlt
          exact not_ascii_of_lt_width (Nat.lt_of_not_le hlt) hb hascii
        have hrest : ((first :: tail).drop (decode first tail).width)[n + 1 - (decode first tail).width]? = some b := by
          rw [List.getElem?_drop, Nat.add_sub_cancel' hle]
          exact hb
        have h := (boundary_of_next? hnext).add (ih _ (by omega) hrest)
        rwa [Nat.add_sub_cancel' hle] at h

theorem boundary_succ_of_ascii (hb : s[n]? = some b) (hascii : b < 0x80) : s.Boundary (n + 1) := by
  have hdrop : s.drop n = b :: s.drop (n + 1) := by
    rw [List.drop_eq_getElem?_toList_append, hb]
    rfl
  have hnext := next?_cons_ascii hascii (s.drop (n + 1))
  rw [← hdrop] at hnext
  exact (boundary_of_ascii hb hascii).step hnext

/-- A rune that is an ASCII character is one byte. -/
theorem next?_ascii (h : s.next? = some (r, rest)) (hcode : r.code < 128) :
    ∃ b, s = b :: rest ∧ r = ⟨b.toNat, 1⟩ ∧ b < 0x80 := by
  cases s with
  | nil => cases h
  | cons b tail =>
    rw [next?] at h
    obtain ⟨rfl, rfl⟩ := Prod.mk.inj (Option.some.inj h)
    have hdecode := decode_of_small hcode
    refine ⟨b, ?_, hdecode, ?_⟩
    · rw [hdecode]
      rfl
    · rw [hdecode] at hcode
      exact hcode

end Text

namespace Token

variable {src s rest : Text} {r : Rune} {n : Nat} {k : Kind} {t : Token} {pos : Nat} {accept : KindSet}
  {bound : Option (Text → Bool)}

/-! ## What is walked rune by rune -/

theorem boundary_blankLength (keep : Bool) (s : Text) : s.Boundary (blankLength keep s) := by
  induction s with
  | nil => exact .zero _
  | cons b s ih =>
    rw [blankLength]
    split
    · rename_i hblank
      have hascii : b < 0x80 := by
        rcases hblank with rfl | rfl | rfl | ⟨rfl, -⟩ <;> decide
      have hfirst := Text.boundary_of_next? (Text.next?_cons_ascii hascii s)
      rw [Nat.add_comm]
      exact hfirst.add ih
    · exact .zero _

theorem boundary_skipBlank (h : src.Boundary pos) (keep : Bool) : src.Boundary (skipBlank src pos keep) :=
  h.add (boundary_blankLength keep _)

theorem boundary_runFrom (rule : RunRule) {whole s : Text} {n : Nat} (name : Bool) (hs : s = whole.drop n)
    (h : whole.Boundary n) : whole.Boundary (runFrom rule whole n name s).1 := by
  -- The walk goes on from one boundary of the whole text to the next, two of them after a backslash.
  fun_induction runFrom rule whole n name s with
  | case4 n name s r rest hnext => exact h.step (hs ▸ hnext)
  | case5 n name s r rest hnext _ _ _ _ e rest' hnext' _ ih =>
    subst hs
    obtain ⟨rfl, -⟩ := Text.next?_eq_some hnext
    rw [List.drop_drop] at hnext'
    exact ih (by rw [(Text.next?_eq_some hnext').1, List.drop_drop]) ((h.step hnext).step hnext')
  | case9 n s r rest hnext _ _ _ _ _ _ _ ih | case11 n s r rest hnext _ _ _ _ _ _ _ _ ih
  | case12 n name s r rest hnext _ _ _ _ _ _ _ ih =>
    subst hs
    obtain ⟨rfl, -⟩ := Text.next?_eq_some hnext
    exact ih (by rw [List.drop_drop]) (h.step hnext)
  | _ => exact h

theorem boundary_run (rule : RunRule) (s : Text) : s.Boundary (run rule s).1 :=
  boundary_runFrom rule true rfl (.zero s)

/-! ## What is looked for byte by byte -/

theorem punctuation?_char {c : Nat} (h : punctuation? accept c = some k) : c ∈ "\n();:'\".".toList.map Char.toNat := by
  rw [punctuation?] at h
  repeat' split at h
  all_goals first | cases h; done | skip
  all_goals simp_all
  all_goals omega

theorem punctuation?_ascii {c : Nat} (h : punctuation? accept c = some k) : c < 128 := by
  have hall : ∀ c ∈ "\n();:'\".".toList.map Char.toNat, c < 128 := by decide
  exact hall c (punctuation?_char h)

theorem boundary_takeWhile {p : UInt8 → Bool} (hp : ∀ b, p b = true → b < 0x80) (s : Text) :
    s.Boundary (s.takeWhile p).length := by
  induction s with
  | nil => exact .zero _
  | cons b s ih =>
    rw [List.takeWhile_cons]
    split
    · rename_i hb
      have hfirst := Text.boundary_of_next? (Text.next?_cons_ascii (hp b hb) s)
      rw [List.length_cons, Nat.add_comm]
      exact hfirst.add ih
    · exact .zero _

/-- The flags of a regular expression are ASCII letters, and what stands before them is a slash. -/
theorem boundary_regex (h : regexLength? s = some n) : s.Boundary n := by
  obtain ⟨m, -, rfl, -, hslashes⟩ := regexLength?_eq_some h
  obtain ⟨tail, htail⟩ := List.isPrefixOf_iff_prefix.mp hslashes
  have hslash : s[2 + m + 1]? = some (Text.byte '/') := by
    rw [Nat.add_assoc, ← List.getElem?_drop, ← List.getElem?_drop, ← htail]
    rfl
  have hletter (b : UInt8) (hb : isLower b.toNat = true) : b < 0x80 := by
    simp only [isLower, Bool.and_eq_true, decide_eq_true_eq] at hb
    have hlast : b.toNat ≤ 122 := hb.2
    exact UInt8.lt_iff_toNat_lt.mpr (by change b.toNat < 128; omega)
  rw [List.drop_drop, ← Nat.add_assoc]
  exact (Text.boundary_succ_of_ascii hslash (by decide)).add (boundary_takeWhile hletter _)

theorem ofOperator?_ascii {t : Text} (h : Kind.ofOperator? t = some k) : ∀ b ∈ t, b < 0x80 := by
  have hall : ∀ entry ∈ Kind.operators, ∀ b ∈ entry.1, b < 0x80 := by decide +kernel
  exact hall (t, k) (mem_of_lookup h)

theorem boundary_glued {t : Text} (ht : t <+: s) (h : gluedOperator? accept t = some (k, n)) : s.Boundary n := by
  obtain ⟨hpos, hle, hoperator⟩ := gluedOperator?_eq_some h
  have hascii := ofOperator?_ascii (operator?_eq_some hoperator).1
  obtain ⟨m, rfl⟩ : ∃ m, n = m + 1 := ⟨n - 1, by omega⟩
  obtain ⟨tail, rfl⟩ := ht
  -- The glued operator is ASCII as a whole, so its last byte ends a rune, wherever it stands.
  have hlast : t[m]? = some t[m] := List.getElem?_eq_getElem hle
  have hmem : t[m] ∈ t.take (m + 1) :=
    List.mem_of_getElem? (i := m) (by rw [List.getElem?_take_of_lt (Nat.lt_succ_self m), hlast])
  refine Text.boundary_succ_of_ascii (b := t[m]) ?_ (hascii _ hmem)
  rw [List.getElem?_append_left hle, hlast]

theorem Classified.boundary (hnext : s.next? = some (r, rest)) (h : Classified accept bound r s k n) :
    s.Boundary n := by
  cases h with
  | punctuation h =>
    obtain ⟨b, rfl, -, hascii⟩ := Text.next?_ascii hnext (punctuation?_ascii h)
    exact Text.boundary_succ_of_ascii rfl hascii
  | regex _ _ h => exact boundary_regex h
  | operator | number => exact boundary_run .whole s
  | glued _ h => exact boundary_glued (List.take_prefix _ _) h
  | illegal => exact Text.boundary_of_next? hnext
  | argName _ h _ _ hequals =>
    rw [List.head?_drop] at hequals
    exact Text.boundary_succ_of_ascii hequals (by decide)
  | beforeDot _ h | keyword _ h | assignable _ h | identifier _ h | word _ h | badWord _ h =>
    have hrun := boundary_run (ruleOf accept bound) s
    rwa [h] at hrun

/-- A token that is asked for between two runes starts and stops between two runes. -/
theorem Scanned.boundary (h : Scanned src pos accept bound t) (hpos : src.Boundary pos) :
    src.Boundary t.start ∧ src.Boundary t.stop := by
  cases h with
  | eof => exact ⟨Text.boundary_length src, Text.boundary_length src⟩
  | token hnext h =>
    have hstart := boundary_skipBlank hpos (accept.has .newline)
    exact ⟨hstart, hstart.add (h.boundary hnext)⟩

end Token
end Bareword
