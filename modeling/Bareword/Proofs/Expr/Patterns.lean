import Bareword.Expr.Compile
import Bareword.Expr.OfTree
import Bareword.Proofs.Token.Contract

/-! # Patterns between slashes

A regular expression is a pattern between double slashes, with flags behind it. The scanner ends the pattern before
the first slashes that it meets, whoever reads the token takes the last ones. Between the first and the last there is
room for nothing, since the flags are letters.

* `Text.not_infix_of_find?`, `Text.findLast?_eq_some`: what the first and the last place of a text tell.
* `Token.Delimits`: how a text is made of a pattern and flags.
* `Token.delimited?`, `OfTree.parts?`: what the scanner takes for the pattern, and what the reader of a token does.
* `Token.Memo.next_regex`: the two agree on every token.
-/

namespace Bareword.Text
set_option autoImplicit false

variable {pat t flags : Text} {n m : Nat}

/-! ## First and last places -/

theorem not_prefix_of_find? (h : find? pat t = some n) (hm : m < n) : ¬ pat <+: t.drop m := by
  induction t generalizing n m with
  | nil =>
    rw [find?] at h
    split at h
    · cases h
      exact absurd hm (Nat.not_lt_zero m)
    · cases h
  | cons b rest ih =>
    rw [find?] at h
    split at h
    · cases h
      exact absurd hm (Nat.not_lt_zero m)
    · rename_i hfront
      obtain ⟨k, hk, rfl⟩ := Option.map_eq_some_iff.mp h
      cases m with
      | zero => exact fun hprefix => hfront (List.isPrefixOf_iff_prefix.mpr hprefix)
      | succ m => exact ih hk (Nat.lt_of_succ_lt_succ hm)

/-- What is sought does not begin before the first place where it stands. -/
theorem not_infix_of_find? (h : find? pat t = some n) (front back : Text) (hfront : front.length < n) :
    t ≠ front ++ (pat ++ back) := by
  rintro rfl
  refine not_prefix_of_find? h hfront ?_
  rw [List.drop_left]
  exact List.prefix_append pat back

theorem findLast?_eq_none (h : ∀ m ≤ t.length, ¬ pat <+: t.drop m) : findLast? pat t = none := by
  induction t with
  | nil =>
    have hne : ¬ pat.isEmpty = true := fun hempty => h 0 (Nat.le_refl 0) (List.isEmpty_iff.mp hempty ▸ List.nil_prefix)
    rw [findLast?, if_neg hne]
  | cons b rest ih =>
    have hfront : ¬ pat.isPrefixOf (b :: rest) = true := fun hprefix =>
      h 0 (Nat.zero_le _) (List.isPrefixOf_iff_prefix.mp hprefix)
    rw [findLast?, ih fun m hm => h (m + 1) (Nat.succ_le_succ hm)]
    exact if_neg hfront

/-- The last place where something stands is the one behind which it does not stand any more. -/
theorem findLast?_eq_some (hn : n ≤ t.length) (hat : pat <+: t.drop n)
    (hlast : ∀ m ≤ t.length, n < m → ¬ pat <+: t.drop m) : findLast? pat t = some n := by
  induction t generalizing n with
  | nil =>
    obtain rfl : n = 0 := Nat.le_zero.mp hn
    have hempty : pat.isEmpty = true := List.isEmpty_iff.mpr (List.prefix_nil.mp hat)
    rw [findLast?, if_pos hempty]
  | cons b rest ih =>
    rw [findLast?]
    cases n with
    | zero =>
      have hfront : pat.isPrefixOf (b :: rest) = true := List.isPrefixOf_iff_prefix.mpr hat
      rw [findLast?_eq_none fun m hm => hlast (m + 1) (Nat.succ_le_succ hm) (Nat.succ_pos m)]
      exact if_pos hfront
    | succ n =>
      rw [ih (Nat.le_of_succ_le_succ hn) hat fun m hm hlt =>
        hlast (m + 1) (Nat.succ_le_succ hm) (Nat.succ_lt_succ hlt)]

theorem length_slashes : (ofString "//").length = 2 := by decide

/-- Two slashes do not stand anywhere behind slashes that no slash follows. -/
theorem findLast?_slashes (pattern : Text) (h : byte '/' ∉ flags) :
    findLast? "//" (pattern ++ (ofString "//" ++ flags)) = some pattern.length := by
  refine findLast?_eq_some (by simp) ?_ fun m _ hlt hprefix => h ?_
  · rw [List.drop_left]
    exact List.prefix_append _ _
  · obtain ⟨k, rfl⟩ : ∃ k, m = pattern.length + (k + 1) := ⟨m - pattern.length - 1, by omega⟩
    rw [List.drop_append, List.drop_eq_nil_of_le (by omega), Nat.add_sub_cancel_left, List.nil_append] at hprefix
    -- The second slash is one of the flags.
    have hslash : (ofString "//" ++ flags)[k + 1 + 1]? = some (byte '/') := by
      obtain ⟨tail, htail⟩ := hprefix
      rw [← List.getElem?_drop, ← htail]
      rfl
    exact List.mem_of_getElem? hslash

end Bareword.Text

namespace Bareword.Token
set_option autoImplicit false

variable {src s : Text} {n pos : Nat} {t : Token} {accept : KindSet} {bound : Option (Text → Bool)} {r : Rune}
  {text pattern flags : Text}

/-! ## The scanner -/

/-- The text of a regular expression. The pattern has no double slashes in it and no slash at its end, so that it
ends before the first double slashes; the flags have no slash in them at all. -/
structure Delimits (text pattern flags : Text) : Prop where
  text_eq : text = Text.ofString "//" ++ pattern ++ Text.ofString "//" ++ flags
  ne_nil : pattern ≠ []
  plain : ¬ Text.ofString "//" <:+: pattern
  last : pattern.getLast? ≠ some (Text.byte '/')
  lower : ∀ b ∈ flags, isLower b.toNat = true

theorem Delimits.not_mem_flags (h : Delimits text pattern flags) : Text.byte '/' ∉ flags :=
  fun hmem => absurd (h.lower _ hmem) (by decide)

/-- The pattern of a regular expression at the front of a text, for the scanner: it ends before the first slashes. -/
def delimited? (s : Text) : Option Text := (Text.find? "//" (s.drop 2)).map (s.drop 2).take

/-- What the scanner measures is made of the pattern that it delimits, of four slashes and of the letters behind
them. -/
theorem delimited?_of_regexLength? (h : regexLength? s = some n) :
    ∃ pattern tail, delimited? s = some pattern ∧ Text.find? "//" (s.drop 2) = some pattern.length ∧ pattern ≠ [] ∧
      s.drop 2 = pattern ++ (Text.ofString "//" ++ tail) ∧
      n = 2 + pattern.length + 2 + (tail.takeWhile fun b => isLower b.toNat).length := by
  rw [regexLength?] at h
  dsimp only at h
  split at h
  · cases h
  · cases h
  rename_i m hm hfind
  split at h
  · cases h
  have hn := (Option.ite_none_right_eq_some.mp h).2
  obtain ⟨tail, htail⟩ := List.isPrefixOf_iff_prefix.mp (find?_eq_some hfind)
  have hle : m ≤ (s.drop 2).length := by
    by_contra hlong
    rw [List.drop_eq_nil_of_le (Nat.le_of_lt (Nat.lt_of_not_le hlong))] at htail
    cases htail
  have hlength : ((s.drop 2).take m).length = m := List.length_take_of_le hle
  have hrest : (s.drop 2).drop (m + 2) = tail := by
    rw [← List.drop_drop, ← htail]
    rfl
  rw [hrest] at hn
  refine ⟨(s.drop 2).take m, tail, ?_, ?_, ?_, ?_, ?_⟩
  · rw [delimited?, hfind]
    rfl
  · rw [hfind, hlength]
  · rw [← List.length_pos_iff, hlength]
    exact Nat.pos_of_ne_zero hm
  · rw [htail, List.take_append_drop]
  · rw [hlength]
    exact (Option.some.inj hn).symm

/-- A text that the scanner measures is a regular expression with the pattern that it delimits. -/
theorem delimits_of_regexLength? (hslashes : Text.ofString "//" <+: s) (h : regexLength? s = some n) :
    ∃ pattern flags, delimited? s = some pattern ∧ Delimits (s.take n) pattern flags := by
  obtain ⟨pattern, tail, hpattern, hfind, hne, hbody, rfl⟩ := delimited?_of_regexLength? h
  obtain ⟨body, rfl⟩ := hslashes
  obtain rfl : body = pattern ++ (Text.ofString "//" ++ tail) := hbody
  have hfirst : Text.find? "//" (pattern ++ (Text.ofString "//" ++ tail)) = some pattern.length := hfind
  have hflags : tail.take (tail.takeWhile fun b => isLower b.toNat).length = tail.takeWhile fun b => isLower b.toNat :=
    (List.prefix_iff_eq_take.mp (List.takeWhile_prefix _)).symm
  refine ⟨pattern, tail.takeWhile fun b => isLower b.toNat, hpattern, ?_, hne, ?_, ?_, ?_⟩
  · have hlength : (Text.ofString "//" ++ pattern ++ Text.ofString "//").length = 2 + pattern.length + 2 := by
      rw [List.length_append, List.length_append, Text.length_slashes]
    rw [← List.append_assoc, ← List.append_assoc, ← hlength, List.take_length_add_append, hflags]
  · rintro ⟨front, back, rfl⟩
    refine Text.not_infix_of_find? hfirst front (back ++ (Text.ofString "//" ++ tail)) ?_ ?_
    · rw [List.length_append, List.length_append, Text.length_slashes]
      omega
    · simp only [List.append_assoc]
  · intro hlast
    obtain ⟨front, rfl⟩ := List.getLast?_eq_some_iff.mp hlast
    -- The slash at the end and the first of those behind it would have closed the pattern.
    refine Text.not_infix_of_find? hfirst front (Text.byte '/' :: tail) ?_ ?_
    · simp
    · rw [List.append_assoc]
      rfl
  · intro b hb
    have hlower := List.mem_takeWhile_imp hb
    exact hlower

theorem Classified.regexLength?_eq (h : Classified accept bound r s .regex n) :
    Text.ofString "//" <+: s ∧ regexLength? s = some n := by
  have hoperator : Kind.regex ∉ Kind.operators.map Prod.snd := by decide
  cases h with
  | regex _ hslashes h => exact ⟨List.isPrefixOf_iff_prefix.mp hslashes, h⟩
  | punctuation h => exact absurd (punctuation?_mem h) (by decide)
  | operator h => exact absurd (ofOperator?_mem (operator?_eq_some h).1) hoperator
  | glued _ h => exact absurd (ofOperator?_mem (operator?_eq_some (gluedOperator?_eq_some h).2.2).1) hoperator
  | keyword _ _ hkeyword => exact absurd (ofKeyword?_mem hkeyword) (by decide)

theorem Scanned.delimits (h : Scanned src pos accept bound t) (hkind : t.kind = .regex) :
    ∃ pattern flags, delimited? (src.drop t.start) = some pattern ∧ Delimits t.text pattern flags := by
  cases h with
  | eof => cases hkind
  | @token _ _ k n hnext h =>
    obtain rfl : k = .regex := hkind
    obtain ⟨hslashes, hlength⟩ := h.regexLength?_eq
    rw [cut_text]
    exact delimits_of_regexLength? hslashes hlength

end Bareword.Token

namespace Bareword.OfTree
set_option autoImplicit false
open Bareword.Tree (Node)

variable {n : Node} {e : Expr} {text pattern flags : Text}

/-! ## The reader of a token -/

/-- The pattern and the flags of a regular expression, for the reader of a token: the last slashes are between them. -/
def parts? (text : Text) : Option (Text × Text) :=
  (Text.findLast? "//" (Text.dropLead "//" text)).map fun i =>
    ((Text.dropLead "//" text).take i, (Text.dropLead "//" text).drop (i + 2))

theorem parts?_eq (h : Token.Delimits text pattern flags) : parts? text = some (pattern, flags) := by
  have hbody : Text.dropLead "//" text = pattern ++ (Text.ofString "//" ++ flags) := by
    have hlead : (Text.ofString "//").isPrefixOf (Text.ofString "//" ++ (pattern ++ (Text.ofString "//" ++ flags))) :=
      List.isPrefixOf_iff_prefix.mpr (List.prefix_append _ _)
    rw [h.text_eq, List.append_assoc, List.append_assoc, Text.dropLead, if_pos hlead, List.drop_left]
  have hflags : (pattern ++ (Text.ofString "//" ++ flags)).drop (pattern.length + 2) = flags := by
    rw [List.drop_length_add_append]
    rfl
  rw [parts?, hbody, Text.findLast?_slashes pattern h.not_mem_flags, Option.map_some, List.take_left, hflags]

/-- The literal of a regular expression, if it has one, is made of these parts. -/
theorem regex_eq_ok (h : regex n = .ok e) :
    ∃ pattern flags, parts? n.text = some (pattern, flags) ∧ e = .literal n.span (.ofRegex pattern flags) := by
  rw [regex] at h
  dsimp only at h
  split at h
  · cases h
  rename_i i hfind
  split at h
  · cases h
  split at h
  · cases h
  refine ⟨_, _, ?_, (Except.ok.inj h).symm⟩
  rw [parts?, hfind]
  rfl

theorem regex_of_ofNode (hkind : n.kind = .regex) (h : Expr.ofNode n = .ok e) : regex n = .ok e := by
  rw [Expr.ofNode] at h
  cases hheight : n.height with
  | zero =>
    rw [hheight] at h
    cases h
  | succ fuel =>
    rw [hheight, ofNodeWithin, ofParts, hkind] at h
    exact h

end Bareword.OfTree

namespace Bareword.Token.Memo
set_option autoImplicit false

variable {src : Text} {asked : List Question} {q : Question} {t : Token}

/-! ## Tokens -/

/-- The pattern that the scanner delimited by the first slashes behind it is the pattern that the reader of the token
takes from it by the last ones. It is not empty, there are no double slashes in it, and the flags are lower-case
letters. If the literal compiles, then what is pushed is listed as the token is written. -/
theorem next_regex (ht : answer src asked q = t) (hkind : t.kind = .regex) :
    ∃ pattern flags, delimited? (src.drop t.start) = some pattern ∧ OfTree.parts? t.text = some (pattern, flags) ∧
      Delimits t.text pattern flags ∧
      ∀ n e, n.kind = .regex → n.text = t.text → Expr.ofNode n = .ok e →
        e.gen = .push n.span (.ofRegex pattern flags) ∧ (Literal.ofRegex pattern flags).listing = t.text := by
  have hscanned := answer_scanned src asked q
  rw [ht] at hscanned
  obtain ⟨pattern, flags, hpattern, hdelimits⟩ := hscanned.delimits hkind
  have hparts := OfTree.parts?_eq hdelimits
  refine ⟨pattern, flags, hpattern, hparts, hdelimits, fun n e hregex htext he => ⟨?_, hdelimits.text_eq.symm⟩⟩
  obtain ⟨pattern', flags', hparts', rfl⟩ := OfTree.regex_eq_ok (OfTree.regex_of_ofNode hregex he)
  rw [htext, hparts] at hparts'
  obtain ⟨rfl, rfl⟩ := Prod.mk.inj (Option.some.inj hparts')
  rfl

/-- A pattern that begins with a slash. -/
theorem next_regex_slash :
    let src : Text := "///a//g;"
    let q : Question := ⟨0, .of [.regex], none⟩
    let t := answer src [q] q
    let n : Tree.Node := { kind := .regex, span := ⟨0, 7⟩, text := t.text }
    t.kind = .regex ∧ OfTree.parts? t.text = some (Text.ofString "/a", Text.ofString "g") ∧
      ∃ e, Expr.ofNode n = .ok e ∧ e.gen = .push ⟨0, 7⟩ (.ofRegex "/a" "g") ∧
        (Literal.ofRegex "/a" "g").listing = t.text := by
  intro src q t n
  have ht : t = scan src 0 (.of [.regex]) none := answer_eq_scan src [q] q
  have hkind : t.kind = .regex := by
    rw [ht]
    decide +kernel
  have hparts : OfTree.parts? t.text = some (Text.ofString "/a", Text.ofString "g") := by
    rw [ht]
    decide +kernel
  obtain ⟨pattern, flags, -, hparts', -, hcompiles⟩ := next_regex (show _ = t from rfl) hkind
  rw [hparts] at hparts'
  obtain ⟨rfl, rfl⟩ := Prod.mk.inj (Option.some.inj hparts')
  have htext : t.text = Text.ofString "///a//g" := by
    rw [ht]
    decide +kernel
  obtain ⟨e, he⟩ : ∃ e, Expr.ofNode n = .ok e := by
    have hisOk : (Expr.ofNode { kind := .regex, span := ⟨0, 7⟩, text := "///a//g" }).isOk = true := by cbv
    rw [← htext] at hisOk
    cases he : Expr.ofNode n with
    | ok e => exact ⟨e, rfl⟩
    | error obstacle =>
      rw [he] at hisOk
      cases hisOk
  obtain ⟨hgen, hlisting⟩ := hcompiles n e rfl rfl he
  exact ⟨hkind, hparts, e, he, hgen, hlisting⟩

end Bareword.Token.Memo
