import Bareword.Proofs.Token.Runs

/-! # Where pieces stand

The pieces of a bare word and of a quoted string follow each other without gaps.

* `Piece`: a piece of a word or of a string at an offset.
* `wordPiece_cases`, `stringPiece_cases`: the answers of the scanner inside words and strings.
-/

namespace Bareword.Token
set_option autoImplicit false

/-- Some text, an escape or an interpolation that starts at an offset. -/
structure Piece (src : Text) (pos : Nat) (t : Token) : Prop where
  kind_mem : t.kind ∈ [Kind.fragment, .escape, .interpName, .interpOpen]
  start_eq : t.start = pos
  lt : pos < t.stop
  le : t.stop ≤ src.length
  text_eq : t.kind ≠ .interpName → t.text = src.extract t.start t.stop
  name_text_eq : t.kind = .interpName → t.text = src.extract (t.start + 1) t.stop

theorem interpLength_le (s : Text) : interpLength s ≤ s.length := by
  fun_induction interpLength s with
  | case2 s r rest h _ _ e tail hnext hchar ih =>
    obtain ⟨rfl, -, hle⟩ := Text.next?_eq_some h
    rw [List.length_drop] at ih
    omega
  | case5 s r rest h _ _ _ ih =>
    obtain ⟨rfl, -, hle⟩ := Text.next?_eq_some h
    rw [List.length_drop] at ih
    omega
  | _ => exact Nat.zero_le _

theorem literalLength_le (ends : Nat → Text → Bool) (s : Text) : literalLength ends s ≤ s.length := by
  fun_induction literalLength ends s with
  | case3 s r rest h _ _ ih =>
    obtain ⟨rfl, -, hle⟩ := Text.next?_eq_some h
    rw [List.length_drop] at ih
    omega
  | _ => exact Nat.zero_le _

theorem interp?_eq_some {s : Text} {i : Interp} (h : interp? s = some i) :
    match i with
    | .opening => 0 < s.length
    | .name n => 0 < n ∧ n ≤ s.length := by
  rw [interp?] at h
  cases hnext : s.next? with
  | none =>
    rw [hnext] at h
    cases h
  | some found =>
    obtain ⟨r, rest⟩ := found
    obtain ⟨hrest, hpos, hle⟩ := Text.next?_eq_some hnext
    rw [hnext] at h
    dsimp only at h
    split at h
    · cases h
      exact Nat.lt_of_lt_of_le hpos hle
    · split at h
      · cases h
        have hlen := interpLength_le rest
        have hrestLen : rest.length = s.length - r.width := by rw [hrest, List.length_drop]
        dsimp only
        omega
      · cases h

theorem Piece.of_cut {src : Text} {pos stop : Nat} {k : Kind}
    (hk : k = .fragment ∨ k = .escape ∨ k = .interpOpen) (hlt : pos < stop) (hle : stop ≤ src.length) :
    Piece src pos (cut src k pos stop) := by
  refine ⟨?_, rfl, hlt, hle, fun _ => rfl, ?_⟩
  · rcases hk with rfl | rfl | rfl <;> simp [cut]
  · rintro rfl
    rcases hk with h | h | h <;> cases h

theorem Interp.piece {src rest : Text} {pos : Nat} {i : Interp} (h : interp? rest = some i)
    (hrest : pos + 1 + rest.length ≤ src.length) : Piece src pos (i.token src pos) := by
  have hlen := interp?_eq_some h
  cases i with
  | opening =>
    dsimp only at hlen
    exact .of_cut (.inr (.inr rfl)) (by omega) (by omega)
  | name n =>
    dsimp only at hlen
    refine ⟨by simp [token], rfl, ?_, ?_, fun hkind => absurd rfl hkind, fun _ => rfl⟩
    · change pos < pos + 1 + n
      omega
    · change pos + 1 + n ≤ src.length
      omega

theorem escapeAt_piece {src rest : Text} {pos : Nat} (hrest : pos + 1 + rest.length ≤ src.length) :
    Piece src pos (escapeAt src pos rest) := by
  have hwidth : ∀ r tail, rest.next? = some (r, tail) → r.width ≤ rest.length :=
    fun r tail h => (Text.next?_eq_some h).2.2
  rw [escapeAt]
  split
  · exact .of_cut (.inr (.inl rfl)) (by omega) (by omega)
  · rename_i r tail hnext
    have hle := hwidth r tail hnext
    exact .of_cut (.inr (.inl rfl)) (by omega) (by omega)

theorem pieceAt_piece {src rest : Text} {pos : Nat} {r : Rune} (ends : Nat → Text → Bool)
    (hnext : Text.next? (src.drop pos) = some (r, rest)) : Piece src pos (pieceAt ends src pos r rest) := by
  obtain ⟨hrest, hpos, hle⟩ := Text.next?_eq_some hnext
  have hlen : rest.length = src.length - pos - r.width := by rw [hrest, List.length_drop, List.length_drop]
  rw [List.length_drop] at hle
  rw [pieceAt]
  split
  · exact escapeAt_piece (by omega)
  · cases hinterp : (if r.code = '$'.toNat then interp? rest else none) with
    | some i =>
      split at hinterp
      · exact i.piece hinterp (by omega)
      · cases hinterp
    | none =>
      have hliteral := literalLength_le ends rest
      exact .of_cut (.inl rfl) (by omega) (by omega)

/-- Inside a word there is a piece of it, unless the word ends. -/
theorem wordPiece_cases (src : Text) (pos : Nat) :
    wordPiece src pos = mark .fragmentEnd pos ∨ Piece src pos (wordPiece src pos) := by
  rw [wordPiece]
  cases hnext : Text.next? (src.drop pos) with
  | none => exact .inl rfl
  | some found =>
    dsimp only
    split
    · exact .inl rfl
    · exact .inr (pieceAt_piece endsWord hnext)

/-- A word goes on where a rune stands that does not end it. -/
theorem wordPiece_piece {src rest : Text} {pos : Nat} {r : Rune}
    (hnext : Text.next? (src.drop pos) = some (r, rest)) (hends : endsWord r.code rest = false) :
    Piece src pos (wordPiece src pos) := by
  rw [wordPiece, hnext]
  dsimp only
  rw [if_neg (Bool.eq_false_iff.mp hends)]
  exact pieceAt_piece endsWord hnext

/-- Inside a string there is a piece of it, unless the string or the source ends. -/
theorem stringPiece_cases (src : Text) (pos quote : Nat) :
    (stringPiece src pos quote = mark .eof src.length ∧ src.length ≤ pos) ∨
      (∃ width, stringPiece src pos quote = cut src .quote pos (pos + width) ∧ 0 < width ∧
        pos + width ≤ src.length) ∨
      Piece src pos (stringPiece src pos quote) := by
  rw [stringPiece]
  cases hnext : Text.next? (src.drop pos) with
  | none => exact .inl ⟨rfl, List.drop_eq_nil_iff.mp (Text.next?_eq_none.mp hnext)⟩
  | some found =>
    obtain ⟨-, hwidth, hle⟩ := Text.next?_eq_some hnext
    rw [List.length_drop] at hle
    dsimp only
    split
    · exact .inr (.inl ⟨found.1.width, rfl, hwidth, by omega⟩)
    · exact .inr (.inr (pieceAt_piece _ hnext))

end Bareword.Token
