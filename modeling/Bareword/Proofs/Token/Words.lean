import Bareword.Proofs.Token.Contract
import Bareword.Proofs.Token.Pieces

/-! # Two measures of a word

The scanner finds the end of a bare word by one walk over its characters. Whoever asks for the word's pieces one
after the other finds the same end, unless one of them opens an interpolation: then the word ends for the walk
at the parenthesis, while its pieces go on behind it.

* `wordLength`: the length of a word, by its characters.
* `runFrom_eq_wordLength`: how far the scanner's walk reaches.
* `wordLength_of_piece`: what a piece takes off a word.
* `piecesFrom`, `Tiles`: the pieces of a word, tokens side by side.
* `Memo.next_word_pieces`: a word that the scanner found, and its pieces.
-/

namespace Bareword.Token
set_option autoImplicit false

variable {src s rest : Text} {r : Rune} {pos n : Nat} {t : Token} {accept : KindSet} {bound : Option (Text → Bool)}

/-- The length of the word at the front of a text. Only characters that no backslash escapes can end it. -/
def wordLength (s : Text) : Nat :=
  match h : s.next? with
  | none => 0
  | some (r, rest) =>
    have := Text.length_lt_of_next? h
    if endsWord r.code rest then 0
    else if r.code = '\\'.toNat then
      match h' : rest.next? with
      | none => r.width
      | some (e, rest') =>
        have := Text.length_lt_of_next? h'
        r.width + (e.width + wordLength rest')
    else r.width + wordLength rest
termination_by s.length

theorem wordLength_of_none (h : s.next? = none) : wordLength s = 0 := by
  rw [wordLength]
  split
  · rfl
  · rename_i hsome
    rw [h] at hsome
    cases hsome

theorem wordLength_of_some (h : s.next? = some (r, rest)) :
    wordLength s = if endsWord r.code rest then 0
      else if r.code = '\\'.toNat then
        match rest.next? with
        | none => r.width
        | some (e, rest') => r.width + (e.width + wordLength rest')
      else r.width + wordLength rest := by
  rw [wordLength]
  split
  · rename_i hnone
    rw [h] at hnone
    cases hnone
  · rename_i hsome
    rw [h] at hsome
    obtain ⟨rfl, rfl⟩ := Prod.mk.inj (Option.some.inj hsome)
    dsimp only
    split
    · rfl
    · split
      · split <;> rename_i hnext <;> rw [hnext]
      · rfl

theorem wordLength_of_ends (h : s.next? = some (r, rest)) (hends : endsWord r.code rest = true) :
    wordLength s = 0 := by
  rw [wordLength_of_some h, if_pos hends]

theorem wordLength_of_plain (h : s.next? = some (r, rest)) (hends : endsWord r.code rest = false)
    (hslash : r.code ≠ '\\'.toNat) : wordLength s = r.width + wordLength rest := by
  rw [wordLength_of_some h, if_neg (Bool.eq_false_iff.mp hends), if_neg hslash]

/-- No backslash ends a word. -/
theorem endsWord_of_backslash (hslash : r.code = '\\'.toNat) (rest : Text) : endsWord r.code rest = false := by
  rw [endsWord, hslash]
  rfl

theorem wordLength_of_escape {e : Rune} {rest' : Text} (h : s.next? = some (r, rest)) (hslash : r.code = '\\'.toNat)
    (h' : rest.next? = some (e, rest')) : wordLength s = r.width + (e.width + wordLength rest') := by
  rw [wordLength_of_some h, if_neg (Bool.eq_false_iff.mp (endsWord_of_backslash hslash rest)), if_pos hslash, h']

theorem wordLength_of_last (h : s.next? = some (r, rest)) (hslash : r.code = '\\'.toNat)
    (h' : rest.next? = none) : wordLength s = r.width := by
  rw [wordLength_of_some h, if_neg (Bool.eq_false_iff.mp (endsWord_of_backslash hslash rest)), if_pos hslash, h']

theorem wordLength_pos (h : s.next? = some (r, rest)) (hends : endsWord r.code rest = false) : 0 < wordLength s := by
  have hwidth := (Text.next?_eq_some h).2.1
  by_cases hslash : r.code = '\\'.toNat
  · cases h' : rest.next? with
    | none =>
      rw [wordLength_of_last h hslash h']
      exact hwidth
    | some found =>
      rw [wordLength_of_escape h hslash h']
      omega
  · rw [wordLength_of_plain h hends hslash]
    omega

/-! ## The walk -/

/-- The walk over a word that is no name reaches to its end. -/
theorem runFrom_eq_wordLength {rule : RunRule} (hword : rule.allowWord = true) {whole : Text} {n m : Nat} {name : Bool}
    (h : runFrom rule whole n name s = (m, .word)) : m = n + wordLength s := by
  revert h
  have hfinish {n m : Nat} {name : Bool} (h : (n, if name then Shape.name else Shape.word) = (m, Shape.word)) :
      m = n := (Prod.mk.inj h).1.symm
  have hgoesOn {n : Nat} {s rest : Text} {r : Rune} (hnext : s.next? = some (r, rest))
      (hchar : ¬(!isWordChar r.code) = true) (hslash : r.code ≠ '\\'.toNat)
      (hsep : ¬(isSeparatorChar r.code && (!rule.allowWord || !startsWord rest)) = true)
      (ih : m = n + r.width + wordLength rest) : m = n + wordLength s := by
    rw [hword, Bool.not_true, Bool.false_or, Bool.not_eq_true] at hsep
    have hends : endsWord r.code rest = false := by
      rw [endsWord, hsep, Bool.or_false]
      exact Bool.eq_false_iff.mpr hchar
    rw [ih, wordLength_of_plain hnext hends hslash, Nat.add_assoc]
  -- The cases are those of the walk. One that stops early looks like a name; all other steps are steps of the word.
  fun_induction runFrom rule whole n name s with
  | case1 n name s finish hnone =>
    intro h
    rw [wordLength_of_none hnone]
    exact hfinish h
  | case2 n name s finish r rest hnext _ hchar =>
    intro h
    rw [wordLength_of_ends hnext (by rw [endsWord, hchar, Bool.true_or])]
    exact hfinish h
  | case3 _ _ _ _ _ _ _ _ _ _ hnot | case10 _ _ _ _ _ _ _ _ _ _ hnot =>
    rw [hword] at hnot
    cases hnot
  | case4 n name s r rest hnext _ hchar hslash hnot hnone =>
    intro h
    rw [wordLength_of_last hnext hslash hnone]
    exact (Prod.mk.inj h).1.symm
  | case5 n name s r rest hnext _ hchar hslash hnot e rest' hnext' _ ih =>
    intro h
    rw [ih h, wordLength_of_escape hnext hslash hnext']
    omega
  | case6 n name s finish r rest hnext _ hchar hslash hsep =>
    intro h
    rw [hword, Bool.not_true, Bool.false_or] at hsep
    rw [wordLength_of_ends hnext (by rw [endsWord, hsep, Bool.or_true])]
    exact hfinish h
  | case7 =>
    intro h
    cases (Prod.mk.inj h).2
  | case8 =>
    intro h
    have hshape := (Prod.mk.inj h).2
    split at hshape <;> cases hshape
  | case9 n s r rest hnext _ hchar hslash hsep _ _ _ ih | case11 n s r rest hnext _ hchar hslash hsep _ _ _ _ ih
  | case12 n name s r rest hnext _ hchar hslash hsep _ _ _ ih =>
    exact fun h => hgoesOn hnext hchar hslash hsep (ih h)

/-! ## Pieces -/

theorem wordLength_literal (s : Text) :
    wordLength s = literalLength endsWord s + wordLength (s.drop (literalLength endsWord s)) := by
  fun_induction literalLength endsWord s with
  | case1 s hnone => rw [List.drop_zero, Nat.zero_add]
  | case2 s r rest hnext => rw [List.drop_zero, Nat.zero_add]
  | case3 s r rest hnext _ hplain ih =>
    rw [Bool.or_eq_true, Bool.or_eq_true, not_or, not_or, beq_iff_eq, Bool.not_eq_true] at hplain
    rw [wordLength_of_plain hnext hplain.1.1 hplain.1.2, ih, (Text.next?_eq_some hnext).1, List.drop_drop,
      ← Nat.add_assoc]

/-- A character of an interpolated name neither ends a word nor escapes anything. -/
theorem plain_of_interp {c : Nat} (h : isInterpChar c = true ∨ c = '-'.toNat) (rest : Text) :
    endsWord c rest = false ∧ c ≠ '\\'.toNat := by
  have hchar : isNameChar c = true ∨ isUpper c = true ∨ c = '_'.toNat := by
    simp only [isInterpChar, isInterpStart, isNameStart, isNameChar, Bool.or_eq_true, beq_iff_eq] at h ⊢
    tauto
  rcases hchar with hname | hupper | rfl
  · obtain ⟨hword, hslash, hsep, -⟩ := plain_of_isNameChar hname
    exact ⟨by rw [endsWord, hword, hsep]; rfl, hslash⟩
  · have hrange : 65 ≤ c ∧ c ≤ 90 := by
      rw [isUpper, Bool.and_eq_true, decide_eq_true_eq, decide_eq_true_eq] at hupper
      exact hupper
    simp only [endsWord, isWordChar, isSeparatorChar]
    simp
    omega
  · exact ⟨rfl, by decide⟩

theorem wordLength_interp (s : Text) : wordLength s = interpLength s + wordLength (s.drop (interpLength s)) := by
  have hstep {s rest : Text} {r : Rune} (hnext : s.next? = some (r, rest))
      (hchar : isInterpChar r.code = true ∨ r.code = '-'.toNat)
      (ih : wordLength rest = interpLength rest + wordLength (rest.drop (interpLength rest))) :
      wordLength s = r.width + interpLength rest + wordLength (s.drop (r.width + interpLength rest)) := by
    obtain ⟨hends, hslash⟩ := plain_of_interp hchar rest
    rw [wordLength_of_plain hnext hends hslash, ih, (Text.next?_eq_some hnext).1, List.drop_drop, ← Nat.add_assoc]
  fun_induction interpLength s with
  | case2 s r rest hnext _ hhyphen _ _ _ _ ih => exact hstep hnext (.inr hhyphen) ih
  | case5 s r rest hnext _ _ hchar ih => exact hstep hnext (.inl hchar) ih
  | _ => rw [List.drop_zero, Nat.zero_add]

theorem wordLength_name (h : interp? s = some (.name n)) : wordLength s = n + wordLength (s.drop n) := by
  rw [interp?] at h
  cases hnext : s.next? with
  | none =>
    rw [hnext] at h
    cases h
  | some found =>
    obtain ⟨r, rest⟩ := found
    rw [hnext] at h
    dsimp only at h
    split at h
    · cases h
    split at h
    · rename_i hstart
      cases h
      have hchar : isInterpChar r.code = true := by rw [isInterpChar, hstart, Bool.true_or]
      obtain ⟨hends, hslash⟩ := plain_of_interp (.inl hchar) rest
      rw [wordLength_of_plain hnext hends hslash, wordLength_interp rest, (Text.next?_eq_some hnext).1, List.drop_drop,
        Nat.add_assoc]
    · cases h

section
variable (hnext : Text.next? (src.drop pos) = some (r, rest))
include hnext

theorem wordLength_escapeAt (hslash : r.code = '\\'.toNat) (hne : rest ≠ []) :
    wordLength (src.drop pos) = ((escapeAt src pos rest).stop - pos) +
      wordLength (src.drop (escapeAt src pos rest).stop) := by
  obtain ⟨_, -, rfl, -⟩ := Text.next?_ascii hnext (by rw [hslash]; decide)
  cases hnext' : rest.next? with
  | none => exact absurd (Text.next?_eq_none.mp hnext') hne
  | some found =>
    obtain ⟨e, rest'⟩ := found
    have hrest' : rest' = src.drop (pos + 1 + e.width) := by
      rw [(Text.next?_eq_some hnext').1, (Text.next?_eq_some hnext).1, List.drop_drop, List.drop_drop, Nat.add_assoc pos]
    rw [wordLength_of_escape hnext hslash hnext', escapeAt, hnext']
    dsimp only [cut]
    rw [← hrest']
    omega

theorem wordLength_dollar (hdollar : r.code = '$'.toNat) (hends : endsWord r.code rest = false)
    (hname : interp? rest = some (.name n)) :
    wordLength (src.drop pos) = (((Interp.name n).token src pos).stop - pos) +
      wordLength (src.drop ((Interp.name n).token src pos).stop) := by
  obtain ⟨_, -, rfl, -⟩ := Text.next?_ascii hnext (by rw [hdollar]; decide)
  rw [wordLength_of_plain hnext hends (by rw [hdollar]; decide), wordLength_name hname, (Text.next?_eq_some hnext).1,
    List.drop_drop, List.drop_drop]
  dsimp only [Interp.token]
  rw [Nat.add_assoc pos]
  omega

/-- A character that opens nothing, and what is literal behind it. A backslash is such a character at the end of
the text. -/
theorem wordLength_fragment (hends : endsWord r.code rest = false) (hescape : ¬(r.code = '\\'.toNat ∧ rest ≠ [])) :
    wordLength (src.drop pos) = (r.width + literalLength endsWord rest) +
      wordLength (src.drop (pos + r.width + literalLength endsWord rest)) := by
  have hrest : rest = src.drop (pos + r.width) := by rw [(Text.next?_eq_some hnext).1, List.drop_drop]
  rw [← List.drop_drop, ← hrest]
  by_cases hslash : r.code = '\\'.toNat
  · obtain rfl : rest = [] := by
      by_contra hne
      exact hescape ⟨hslash, hne⟩
    have hnone : Text.next? [] = none := Text.next?_eq_none.mpr rfl
    have hliteral := wordLength_literal []
    rw [wordLength_of_none hnone] at hliteral
    rw [wordLength_of_last hnext hslash hnone]
    omega
  · rw [wordLength_of_plain hnext hends hslash, wordLength_literal rest, Nat.add_assoc]

theorem wordLength_pieceAt (hends : endsWord r.code rest = false)
    (hopen : (pieceAt endsWord src pos r rest).kind ≠ .interpOpen) :
    wordLength (src.drop pos) = ((pieceAt endsWord src pos r rest).stop - pos) +
      wordLength (src.drop (pieceAt endsWord src pos r rest).stop) := by
  rw [pieceAt] at hopen ⊢
  by_cases hescape : r.code = '\\'.toNat ∧ rest ≠ []
  · rw [if_pos hescape]
    exact wordLength_escapeAt hnext hescape.1 hescape.2
  · rw [if_neg hescape] at hopen ⊢
    cases hinterp : (if r.code = '$'.toNat then interp? rest else none) with
    | none =>
      dsimp only [cut]
      rw [Nat.add_assoc pos, Nat.add_sub_cancel_left, ← Nat.add_assoc]
      exact wordLength_fragment hnext hends hescape
    | some i =>
      rw [hinterp] at hopen
      obtain ⟨hdollar, hinterp⟩ := Option.ite_none_right_eq_some.mp hinterp
      cases i with
      | opening => exact absurd rfl hopen
      | name n => exact wordLength_dollar hnext hdollar hends hinterp

end

/-- A piece that does not open an interpolation takes what it covers off the word. -/
theorem wordLength_of_piece (hend : (wordPiece src pos).kind ≠ .fragmentEnd)
    (hopen : (wordPiece src pos).kind ≠ .interpOpen) :
    wordLength (src.drop pos) = ((wordPiece src pos).stop - pos) + wordLength (src.drop (wordPiece src pos).stop) := by
  rw [wordPiece] at hend hopen ⊢
  cases hnext : Text.next? (src.drop pos) with
  | none =>
    rw [hnext] at hend
    exact absurd rfl hend
  | some found =>
    rw [hnext] at hend hopen
    dsimp only at hend hopen ⊢
    split at hend
    · exact absurd rfl hend
    · rename_i hends
      rw [if_neg hends] at hopen ⊢
      exact wordLength_pieceAt hnext (Bool.eq_false_iff.mpr hends) hopen

/-- The pieces end where the word does. -/
theorem wordLength_eq_zero (pos : Nat) : wordLength (src.drop pos) = 0 ↔ (wordPiece src pos).kind = .fragmentEnd := by
  rw [wordPiece]
  cases hnext : Text.next? (src.drop pos) with
  | none => exact ⟨fun _ => rfl, fun _ => wordLength_of_none hnext⟩
  | some found =>
    dsimp only
    split
    · rename_i hends
      exact ⟨fun _ => rfl, fun _ => wordLength_of_ends hnext hends⟩
    · rename_i hends
      rw [Bool.not_eq_true] at hends
      have hpos := wordLength_pos hnext hends
      have hmem := (pieceAt_piece endsWord hnext).kind_mem
      refine ⟨fun h => by omega, fun h => ?_⟩
      rw [h] at hmem
      exact absurd hmem (by decide)

/-! ## Tokens side by side -/

/-- Tokens that stand side by side from one offset to another, and none of them is empty. -/
inductive Tiles : List Token → Nat → Nat → Prop where
  | nil (pos : Nat) : Tiles [] pos pos
  | cons {t : Token} {ts : List Token} {stop : Nat} (hlt : t.start < t.stop) (h : Tiles ts t.stop stop) :
      Tiles (t :: ts) t.start stop

/-- The pieces of a word from an offset on, each asked for at the end of the one before. -/
def piecesFrom (src : Text) (pos : Nat) : List Token :=
  if hend : (wordPiece src pos).kind = .fragmentEnd then []
  else
    have : src.length - (wordPiece src pos).stop < src.length - pos := by
      rcases wordPiece_cases src pos with h | hpiece
      · rw [h] at hend
        exact absurd rfl hend
      · have hlt := hpiece.lt
        have hle := hpiece.le
        omega
    wordPiece src pos :: piecesFrom src (wordPiece src pos).stop
termination_by src.length - pos

/-- The pieces of a word cover it, at least up to the first that opens an interpolation. -/
theorem piecesFrom_cover (src : Text) (pos : Nat) :
    (∃ before opening after, piecesFrom src pos = before ++ opening :: after ∧ opening.kind = .interpOpen ∧
      (∀ p ∈ before, p.kind ≠ .interpOpen) ∧ Tiles before pos opening.start ∧
      opening.start < pos + wordLength (src.drop pos)) ∨
    (∀ p ∈ piecesFrom src pos, p.kind ≠ .interpOpen) ∧
      Tiles (piecesFrom src pos) pos (pos + wordLength (src.drop pos)) := by
  fun_induction piecesFrom src pos with
  | case1 pos hend =>
    rw [(wordLength_eq_zero pos).mpr hend]
    exact .inr ⟨List.forall_mem_nil _, .nil pos⟩
  | case2 pos hend hshorter ih =>
    have hpiece : Piece src pos (wordPiece src pos) := by
      refine (wordPiece_cases src pos).resolve_left fun h => hend ?_
      rw [h]
      rfl
    have hpos : 0 < wordLength (src.drop pos) := Nat.pos_of_ne_zero fun h => hend ((wordLength_eq_zero pos).mp h)
    have hstart := hpiece.start_eq
    have hlt := hpiece.lt
    by_cases hopen : (wordPiece src pos).kind = .interpOpen
    · refine .inl ⟨[], wordPiece src pos, _, rfl, hopen, List.forall_mem_nil _, ?_, by omega⟩
      rw [hstart]
      exact .nil pos
    · have hlength := wordLength_of_piece hend hopen
      have hcons {ts : List Token} {stop : Nat} (h : Tiles ts (wordPiece src pos).stop stop) :
          Tiles (wordPiece src pos :: ts) pos stop := by
        have htiles := Tiles.cons (by omega) h
        rwa [hstart] at htiles
      rcases ih with ⟨before, opening, after, heq, hkind, hbefore, htiles, hle⟩ | ⟨hall, htiles⟩
      · exact .inl ⟨_ :: before, opening, after, by rw [heq]; rfl, hkind, List.forall_mem_cons.mpr ⟨hopen, hbefore⟩,
          hcons htiles, by omega⟩
      · refine .inr ⟨List.forall_mem_cons.mpr ⟨hopen, hall⟩, hcons ?_⟩
        rwa [hlength, ← Nat.add_assoc, Nat.add_sub_cancel' (Nat.le_of_lt hlt)]

/-- The scanner measures words by their characters. -/
theorem Scanned.stop_eq_of_word (h : Scanned src pos accept bound t) (hkind : t.kind = .word) :
    t.stop = t.start + wordLength (src.drop t.start) := by
  cases h with
  | eof => cases hkind
  | @token _ _ k n _ h =>
    obtain rfl : k = .word := hkind
    obtain ⟨hrun, haccept⟩ := h.run_word
    rw [run] at hrun
    have hn := runFrom_eq_wordLength haccept hrun
    rw [Nat.zero_add] at hn
    dsimp only [cut]
    rw [← hn]

namespace Memo

/-- The pieces of a word that the scanner found, each asked for at the end of the one before, stand side by side
from the start of the word to its end, unless one of them opens an interpolation within the word. -/
theorem next_word_pieces {asked : List Question} {q : Question} {t : Token}
    (ht : answer src asked q = t) (hkind : t.kind = .word) :
    (∃ before opening after, piecesFrom src t.start = before ++ opening :: after ∧ opening.kind = .interpOpen ∧
      (∀ p ∈ before, p.kind ≠ .interpOpen) ∧ Tiles before t.start opening.start ∧ opening.start < t.stop) ∨
    (∀ p ∈ piecesFrom src t.start, p.kind ≠ .interpOpen) ∧ Tiles (piecesFrom src t.start) t.start t.stop := by
  have hscanned := answer_scanned src asked q
  rw [ht] at hscanned
  rw [hscanned.stop_eq_of_word hkind]
  exact piecesFrom_cover src t.start

/-- A word with a name, an escape and a separator in it, that ends before a semicolon. -/
theorem next_word_pieces_mixed :
    let src : Text := "7$user-id;\\ é;"
    let q : Question := ⟨0, .of [.word], none⟩
    let t := answer src [q] q
    t.kind = .word ∧ t.stop = 14 ∧ Tiles (piecesFrom src t.start) t.start t.stop := by
  intro src q t
  have ht : t = scan src 0 (.of [.word]) none := answer_eq_scan src [q] q
  have hkind : t.kind = .word := by
    rw [ht]
    decide +kernel
  have hkinds : ∀ p ∈ piecesFrom src t.start, p.kind ≠ .interpOpen := by
    rw [ht]
    decide +kernel
  refine ⟨hkind, ?_, ?_⟩
  · rw [ht]
    decide +kernel
  · rcases next_word_pieces (show _ = t from rfl) hkind with ⟨before, opening, after, heq, hopen, -⟩ | ⟨-, htiles⟩
    · exact absurd hopen (hkinds opening (by rw [heq]; exact List.mem_append_right _ List.mem_cons_self))
    · exact htiles

end Memo
end Bareword.Token
