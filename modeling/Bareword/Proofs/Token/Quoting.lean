import Bareword.Proofs.Token.Contract
import Bareword.Proofs.Token.Pieces

/-! # Text in quotes

Any text can be put between quotes, if a backslash stands before every byte that is not taken as it is there. The
scanner reads it back piece by piece.

* `quotes`, `IsSpecial`: the quotes, and the bytes that are not taken as they are between them.
* `escaped`, `enquote`: a text with backslashes, and with quotes around it.
* `literalLength_plain`: how far text without special bytes goes on.
* `stringPiece_escaped`: the next piece of a text in quotes.
-/

namespace Bareword.Token
set_option autoImplicit false

/-- The bytes that open and close strings. -/
def quotes : List UInt8 := [Text.byte '\'', Text.byte '"']

/-- The byte is not taken as it is in a string that the quote opens. -/
def IsSpecial (quote b : UInt8) : Prop := b = Text.byte '\\' ∨ b = quote ∨ b = Text.byte '$'

instance (quote : UInt8) : DecidablePred (IsSpecial quote) := fun _ => inferInstanceAs (Decidable (_ ∨ _))

/-- The text with a backslash before every special byte. -/
def escaped (quote : UInt8) (s : Text) : Text :=
  s.flatMap fun b => if IsSpecial quote b then [Text.byte '\\', b] else [b]

/-- The text in quotes. -/
def enquote (quote : UInt8) (s : Text) : Text := quote :: (escaped quote s ++ [quote])

variable {quote b x : UInt8} {src s v w rest : Text} {pos : Nat}

theorem escaped_cons_special (h : IsSpecial quote b) (s : Text) :
    escaped quote (b :: s) = Text.byte '\\' :: b :: escaped quote s := by
  rw [escaped, List.flatMap_cons, if_pos h]
  rfl

theorem escaped_append_plain (h : ∀ b ∈ v, ¬ IsSpecial quote b) (s : Text) :
    escaped quote (v ++ s) = v ++ escaped quote s := by
  induction v with
  | nil => rfl
  | cons b v ih =>
    obtain ⟨hb, hv⟩ := List.forall_mem_cons.mp h
    rw [List.cons_append, escaped, List.flatMap_cons, if_neg hb]
    exact congrArg (b :: ·) (ih hv)

theorem quote_ascii (hq : quote ∈ quotes) : quote < 0x80 ∧ quote ≠ Text.byte '\\' := by
  have hall : ∀ b ∈ quotes, b < 0x80 ∧ b ≠ Text.byte '\\' := by decide +kernel
  exact hall quote hq

theorem IsSpecial.ascii (hq : quote ∈ quotes) (h : IsSpecial quote b) : b < 0x80 := by
  rcases h with rfl | rfl | rfl
  · decide
  · exact (quote_ascii hq).1
  · decide

/-- A rune that is spelled by a byte that is not special is none of the special characters. -/
theorem code_ne_of_plain (hq : quote ∈ quotes) {r : Rune} (hb : ¬ IsSpecial quote b)
    (hnext : Text.next? (b :: s) = some (r, rest)) {c : UInt8} (hc : IsSpecial quote c) : r.code ≠ c.toNat := by
  intro hcode
  have hsmall : r.code < 128 := by
    rw [hcode]
    exact UInt8.lt_iff_toNat_lt.mp (hc.ascii hq)
  obtain ⟨b', heq, rfl, -⟩ := Text.next?_ascii hnext hsmall
  obtain ⟨rfl, -⟩ := List.cons.inj heq
  exact hb (UInt8.toNat_inj.mp hcode ▸ hc)

/-- Text in a string goes on to a quote or to a backslash. -/
def Ends (quote x : UInt8) : Prop := x = quote ∨ x = Text.byte '\\'

theorem Ends.isSpecial (h : Ends quote x) : IsSpecial quote x := h.elim (fun h => .inr (.inl h)) .inl

/-- The first rune of text without special bytes is no special character, and it does not reach over what ends
the text. -/
theorem next?_plain (hq : quote ∈ quotes) (hb : ¬ IsSpecial quote b) (hx : Ends quote x) (v rest : Text) :
    ∃ r, Text.next? (b :: v ++ x :: rest) = some (r, (b :: v).drop r.width ++ x :: rest) ∧ 0 < r.width ∧
      r.width ≤ (b :: v).length ∧ ∀ c, IsSpecial quote c → r.code ≠ c.toNat := by
  have hle : (Text.decode b (v ++ x :: rest)).width ≤ (b :: v).length := by
    by_contra hlt
    rw [List.length_cons] at hlt
    refine Text.not_ascii_of_lt_width (Nat.lt_of_not_le hlt) ?_ (hx.isSpecial.ascii hq)
    rw [List.getElem?_append_right (Nat.le_refl _), Nat.sub_self]
    rfl
  have hnext : Text.next? (b :: v ++ x :: rest) = some (Text.decode b (v ++ x :: rest),
      (b :: v).drop (Text.decode b (v ++ x :: rest)).width ++ x :: rest) := by
    rw [← List.drop_append_of_le_length hle]
    rfl
  exact ⟨_, hnext, Text.decode_width_pos b _, hle, fun c hc => code_ne_of_plain hq hb hnext hc⟩

/-- What ends text without special bytes in a string. -/
theorem literalLength_end (hx : Ends quote x) (hq : quote ∈ quotes) (rest : Text) :
    literalLength (fun c _ => c == quote.toNat) (x :: rest) = 0 := by
  have hnext := Text.next?_cons_ascii (hx.isSpecial.ascii hq) rest
  rw [literalLength]
  split
  · rfl
  · rename_i r rest' hsome
    rw [hnext] at hsome
    obtain ⟨rfl, rfl⟩ := Prod.mk.inj (Option.some.inj hsome)
    rw [if_pos]
    rcases hx with rfl | rfl
    · rw [beq_self_eq_true, Bool.true_or, Bool.true_or]
    · have hslash : ((Text.byte '\\').toNat == '\\'.toNat) = true := by decide +kernel
      rw [hslash, Bool.or_true, Bool.true_or]

/-- Text without special bytes goes on to the quote or the backslash behind it. -/
theorem literalLength_plain (hq : quote ∈ quotes) (hv : ∀ b ∈ v, ¬ IsSpecial quote b)
    (hx : Ends quote x) (rest : Text) :
    literalLength (fun c _ => c == quote.toNat) (v ++ x :: rest) = v.length := by
  induction hn : v.length using Nat.strongRecOn generalizing v with
  | ind n ih =>
    cases v with
    | nil => exact (literalLength_end hx hq rest).trans hn
    | cons b v =>
      obtain ⟨r, hnext, hpos, hle, hcode⟩ := next?_plain hq (List.forall_mem_cons.mp hv).1 hx v rest
      have hslash : r.code ≠ '\\'.toNat := hcode _ (.inl rfl)
      have hdollar : r.code ≠ '$'.toNat := hcode _ (.inr (.inr rfl))
      rw [literalLength]
      split
      · rename_i hnone
        rw [hnext] at hnone
        cases hnone
      · rename_i r' rest' hsome
        rw [hnext] at hsome
        obtain ⟨rfl, rfl⟩ := Prod.mk.inj (Option.some.inj hsome)
        have hrest := ih ((b :: v).drop r.width).length (by rw [List.length_drop]; omega)
          (fun c hc => hv c (List.mem_of_mem_drop hc)) rfl
        rw [beq_false_of_ne (hcode _ (.inr (.inl rfl))), beq_false_of_ne hslash, beq_false_of_ne hdollar, Bool.false_and, Bool.or_false,
          Bool.or_false, if_neg Bool.false_ne_true, hrest, List.length_drop]
        omega

/-! ## Pieces -/

theorem stringPiece_quote (hq : quote ∈ quotes) (h : src.drop pos = quote :: rest) :
    stringPiece src pos quote.toNat = cut src .quote pos (pos + 1) := by
  rw [stringPiece, h, Text.next?_cons_ascii (quote_ascii hq).1]
  exact if_pos rfl

theorem stringPiece_special (hq : quote ∈ quotes) (hb : IsSpecial quote b)
    (h : src.drop pos = Text.byte '\\' :: b :: rest) :
    stringPiece src pos quote.toNat = cut src .escape pos (pos + 2) := by
  have hquote : (Text.byte '\\').toNat ≠ quote.toNat := fun heq => (quote_ascii hq).2 (UInt8.toNat_inj.mp heq).symm
  rw [stringPiece, h, Text.next?_cons_ascii (by decide +kernel)]
  dsimp only
  rw [if_neg hquote, pieceAt, if_pos ⟨rfl, List.cons_ne_nil _ _⟩, escapeAt, Text.next?_cons_ascii (hb.ascii hq)]
  rfl

theorem stringPiece_plain (hq : quote ∈ quotes) (hv : ∀ b ∈ v, ¬ IsSpecial quote b) (hne : v ≠ [])
    (hx : Ends quote x) (h : src.drop pos = v ++ x :: rest) :
    stringPiece src pos quote.toNat = cut src .fragment pos (pos + v.length) := by
  obtain ⟨b, v, rfl⟩ := List.exists_cons_of_ne_nil hne
  obtain ⟨r, hnext, hpos, hle, hcode⟩ := next?_plain hq (List.forall_mem_cons.mp hv).1 hx v rest
  have hslash : r.code ≠ '\\'.toNat := hcode _ (.inl rfl)
  have hdollar : r.code ≠ '$'.toNat := hcode _ (.inr (.inr rfl))
  have hrest := literalLength_plain hq (fun c hc => hv c (List.mem_of_mem_drop (i := r.width) hc)) hx rest
  rw [stringPiece, h, hnext]
  dsimp only
  rw [if_neg (hcode _ (.inr (.inl rfl))), pieceAt, if_neg fun h => hslash h.1, if_neg hdollar, hrest, List.length_drop, Nat.add_assoc,
    Nat.add_sub_cancel' hle]

theorem unescape_special (hq : quote ∈ quotes) (hb : IsSpecial quote b) : unescape [Text.byte '\\', b] = [b] := by
  have hall : ∀ quote ∈ quotes, ∀ b ∈ [Text.byte '\\', quote, Text.byte '$'], unescape [Text.byte '\\', b] = [b] := by
    decide +kernel
  refine hall quote hq b ?_
  rcases hb with rfl | rfl | rfl <;> simp

/-- The longest front without a special byte. -/
theorem exists_plain_front (hb : ¬ IsSpecial quote b) (s : Text) :
    ∃ v w, b :: s = v ++ w ∧ v ≠ [] ∧ (∀ c ∈ v, ¬ IsSpecial quote c) ∧ ∀ c ∈ w.head?, IsSpecial quote c := by
  let plain (c : UInt8) : Bool := !decide (IsSpecial quote c)
  refine ⟨(b :: s).takeWhile plain, (b :: s).dropWhile plain, (List.takeWhile_append_dropWhile ..).symm, ?_,
    fun c hc => by simpa [plain] using List.mem_takeWhile_imp hc, fun c hc => ?_⟩
  · rw [List.takeWhile_cons_of_pos (by simpa [plain] using hb)]
    exact List.cons_ne_nil _ _
  · have hhead := List.head?_dropWhile_not plain (b :: s)
    rw [Option.mem_def.mp hc] at hhead
    simpa [plain] using hhead

/-- Behind plain bytes there is a backslash, or the quote at the end. -/
theorem exists_ends_escaped (hw : ∀ c ∈ w.head?, IsSpecial quote c) (rest : Text) :
    ∃ x rest', Ends quote x ∧ escaped quote w ++ quote :: rest = x :: rest' := by
  cases w with
  | nil => exact ⟨quote, rest, .inl rfl, rfl⟩
  | cons c w =>
    rw [escaped_cons_special (hw c rfl)]
    exact ⟨_, _, .inr rfl, rfl⟩

/-- The next piece of a text in quotes stands for some of the text, and the rest of it is left. -/
theorem stringPiece_escaped (hq : quote ∈ quotes) (hne : s ≠ []) (h : src.drop pos = escaped quote s ++ quote :: rest) :
    ∃ v w, s = v ++ w ∧ v ≠ [] ∧
      src.drop (stringPiece src pos quote.toNat).stop = escaped quote w ++ quote :: rest ∧
      ((stringPiece src pos quote.toNat).kind = .fragment ∧ (stringPiece src pos quote.toNat).text = v ∨
        (stringPiece src pos quote.toNat).kind = .escape ∧
          unescape (stringPiece src pos quote.toNat).text = v) := by
  obtain ⟨b, s, rfl⟩ := List.exists_cons_of_ne_nil hne
  by_cases hb : IsSpecial quote b
  · rw [escaped_cons_special hb] at h
    refine ⟨[b], s, rfl, List.cons_ne_nil _ _, ?_, .inr ?_⟩
    · rw [stringPiece_special hq hb h]
      dsimp only [cut]
      rw [← List.drop_drop, h]
      rfl
    · rw [stringPiece_special hq hb h]
      refine ⟨rfl, ?_⟩
      rw [cut_text, h]
      exact unescape_special hq hb
  · -- All bytes up to the next special one are one piece.
    obtain ⟨v, w, hsplit, hvne, hv, hw⟩ := exists_plain_front hb s
    obtain ⟨x, rest', hx, hrest⟩ := exists_ends_escaped hw rest
    rw [hsplit, escaped_append_plain hv, List.append_assoc] at h
    rw [stringPiece_plain hq hv hvne hx (h.trans (congrArg (v ++ ·) hrest))]
    refine ⟨v, w, hsplit, hvne, ?_, .inl ⟨rfl, ?_⟩⟩
    · dsimp only [cut]
      rw [← List.drop_drop, h, List.drop_left]
    · rw [cut_text, h, List.take_left]

/-! ## Around strings -/

/-- A quote at the start of the source is a token by itself, whatever is accepted. -/
theorem scan_quote (hq : quote ∈ quotes) (accept : KindSet) (bound : Option (Text → Bool)) :
    scan (quote :: rest) 0 accept bound = cut (quote :: rest) .quote 0 1 := by
  have hall : ∀ quote ∈ quotes, ¬ IsBlank quote := by decide +kernel
  have hstart : skipBlank (quote :: rest) 0 (accept.has .newline) = 0 := by
    rw [skipBlank, List.drop_zero, blankLength, if_neg]
    exact fun hblank => hall quote hq (hblank.imp_right (Or.imp_right (Or.imp_right And.left)))
  have hpunct : punctuation? accept quote.toNat = some .quote := by
    rcases List.mem_pair.mp hq with rfl | rfl <;> rfl
  rw [scan, hstart]
  dsimp only
  rw [List.drop_zero, Text.next?_cons_ascii (quote_ascii hq).1]
  dsimp only
  rw [classify, hpunct]
  rfl

/-- There is nothing to see at the end of the source. -/
theorem scan_end (h : src.drop pos = []) (accept : KindSet) (bound : Option (Text → Bool)) :
    scan src pos accept bound = mark .eof src.length := by
  have hstart : skipBlank src pos (accept.has .newline) = pos := by
    rw [skipBlank, h]
    rfl
  rw [scan, hstart, h]
  rfl

end Bareword.Token
