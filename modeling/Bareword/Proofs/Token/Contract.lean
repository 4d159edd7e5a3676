import Bareword.Proofs.Token.Boundaries
import Bareword.Proofs.Token.Dots
import Bareword.Token.Memo

/-! # The contract of the scanner

What a caller may rely on that asks for a token: where it lies, what its text is for each kind of word, and
when a name stands before a dot. The scanner is asked through a memo, which knows a scope by its fingerprint
only.

* `LongestName`: the longest name at the front of a text.
* `Answer`: the contract, for one question.
* `Memo.answer_eq_scan`: remembered answers are those of the scanner, for the scope that was asked about first.
* `Memo.next_answer`: what that leaves of the contract.
-/

namespace Bareword.Token
set_option autoImplicit false
open Scope (Context)

variable {src s rest : Text} {r : Rune} {n : Nat} {k : Kind} {t : Token} {pos : Nat} {accept : KindSet}
  {bound : Option (Text → Bool)} {rule : RunRule}

/-! ## Blanks to the end -/

/-- Blanks reach to the end of a text if all its bytes are skipped. -/
theorem length_le_blankLength {keep : Bool} :
    s.length ≤ blankLength keep s ↔ ∀ b ∈ s, IsBlank b ∧ (b = Text.byte '\n' → keep = false) := by
  have hskipped (b : UInt8) : (b = Text.byte ' ' ∨ b = Text.byte '\t' ∨ b = Text.byte '\r' ∨
      (b = Text.byte '\n' ∧ keep = false)) ↔ IsBlank b ∧ (b = Text.byte '\n' → keep = false) := by
    constructor
    · rintro (rfl | rfl | rfl | ⟨rfl, hkeep⟩)
      · exact ⟨.inl rfl, fun h => absurd h (by decide)⟩
      · exact ⟨.inr (.inl rfl), fun h => absurd h (by decide)⟩
      · exact ⟨.inr (.inr (.inl rfl)), fun h => absurd h (by decide)⟩
      · exact ⟨.inr (.inr (.inr rfl)), fun _ => hkeep⟩
    · rintro ⟨hblank, hkeep⟩
      exact hblank.imp_right (Or.imp_right (Or.imp_right fun hline => ⟨hline, hkeep hline⟩))
  induction s with
  | nil => exact ⟨fun _ => List.forall_mem_nil _, fun _ => Nat.le_refl _⟩
  | cons b s ih =>
    rw [List.forall_mem_cons, ← hskipped, blankLength]
    split
    · rename_i hblank
      rw [List.length_cons, Nat.add_le_add_iff_right]
      exact ⟨fun h => ⟨hblank, ih.mp h⟩, fun h => ih.mpr h.2⟩
    · rename_i hblank
      exact ⟨fun h => absurd h (Nat.not_succ_le_zero _), fun h => absurd h.1 hblank⟩

theorem length_le_skipBlank {keep : Bool} (hpos : pos ≤ src.length) :
    src.length ≤ skipBlank src pos keep ↔
      ∀ b ∈ src.drop pos, IsBlank b ∧ (b = Text.byte '\n' → keep = false) := by
  rw [← length_le_blankLength, skipBlank, List.length_drop]
  omega

/-! ## Names at the front -/

/-- The longest part at the front of a text that is a name. -/
structure LongestName (s name : Text) : Prop where
  front : name <+: s
  isName : isName name = true
  longest : ∀ longer, longer <+: s → Token.isName longer = true → longer.length ≤ name.length

/-- No run ends within a name. -/
theorem le_run_of_namePrefix (rule : RunRule) (h : NamePrefix s n) : n ≤ (run rule s).1 := by
  rw [runFrom_namePrefix rule h]
  exact (runFrom_le rule s n true _).1

theorem namePrefix_of_front {name : Text} (hfront : name <+: s) (hname : isName name = true) :
    NamePrefix s name.length := by
  obtain ⟨tail, rfl⟩ := hfront
  exact namePrefix_append hname tail

theorem length_pos_of_isName {name : Text} (h : isName name = true) : 0 < name.length := by
  refine List.length_pos_iff.mpr ?_
  rintro rfl
  revert h
  decide +kernel

/-- A run that looks like a name takes the longest one. -/
theorem longestName_of_run {shape : Shape} (hpos : 0 < n) (h : run rule s = (n, shape)) (hshape : shape ≠ .word) :
    LongestName s (s.take n) := by
  have hname := (run_stops h hshape).1
  refine ⟨List.take_prefix n s, hname.isName hpos, fun longer hfront hlonger => ?_⟩
  have hle := le_run_of_namePrefix rule (namePrefix_of_front hfront hlonger)
  rwa [h, ← List.length_take_of_le hname.le] at hle

/-- A name starts with the character of one. -/
theorem isNameStart_of_namePrefix (h : NamePrefix s n) (hpos : 0 < n) (hnext : s.next? = some (r, rest)) :
    isNameStart r.code = true := by
  obtain ⟨rs, hrs, hspells, hn⟩ := h
  cases rs with
  | nil => exact absurd hn (Nat.ne_of_gt hpos)
  | cons first rs =>
    cases hspells with
    | cons hfirst _ =>
      rw [hnext] at hfirst
      obtain ⟨rfl, -⟩ := Prod.mk.inj (Option.some.inj hfirst)
      exact hrs.1

/-- What a walk that looks like a name comes to: the name ends here, it goes on, or a dot is here. -/
def NameWalk (n : Nat) (s : Text) (out : Nat × Shape) : Prop :=
  out = (n, .name) ∨ n < out.1 ∨ out = (n, .beforeDot) ∧ ∃ r rest, s.next? = some (r, rest) ∧ r.code = '.'.toNat

theorem runFrom_nameWalk (rule : RunRule) (whole : Text) (n : Nat) (s : Text) :
    NameWalk n s (runFrom rule whole n true s) := by
  have hlonger (m : Nat) (name : Bool) (u : Text) (hm : n < m) : NameWalk n s (runFrom rule whole m name u) :=
    .inr (.inl (Nat.lt_of_lt_of_le hm (runFrom_le rule whole m name u).1))
  rw [runFrom]
  split
  · exact .inl rfl
  rename_i r rest hnext
  have hwidth := (Text.next?_eq_some hnext).2.1
  have hhere : NameWalk n s (n, .name) := .inl rfl
  have hdot : NameWalk n s (n, if r.code = '.'.toNat then .beforeDot else .name) := by
    split
    · rename_i hdot
      exact .inr (.inr ⟨rfl, r, rest, hnext, hdot⟩)
    · exact hhere
  have hstep : n < n + r.width := Nat.lt_add_of_pos_right hwidth
  -- The cases are those of the walk, in its order.
  refine iteInduction (motive := NameWalk n s) (fun _ => hhere) fun _ => ?_
  refine iteInduction (motive := NameWalk n s) (fun _ => ?backslash) fun _ => ?_
  case backslash =>
    refine iteInduction (motive := NameWalk n s) (fun _ => hhere) fun _ => ?_
    split
    · exact .inr (.inl hstep)
    · exact hlonger _ _ _ (Nat.lt_add_right _ hstep)
  refine iteInduction (motive := NameWalk n s) (fun _ => hhere) fun _ => ?_
  refine iteInduction (motive := NameWalk n s) (fun _ => hhere) fun _ => ?_
  refine iteInduction (motive := NameWalk n s) (fun _ => hdot) fun _ => ?_
  refine iteInduction (motive := NameWalk n s) (fun _ => ?_) fun _ => hlonger _ _ _ hstep
  refine iteInduction (motive := NameWalk n s) (fun _ => hlonger _ _ _ hstep) fun _ => ?_
  exact iteInduction (motive := NameWalk n s) (fun _ => hhere) fun _ => hlonger _ _ _ hstep

/-- While a walk looks like a name, it does not end as a word where it stands. -/
theorem runFrom_ne_word (rule : RunRule) (whole : Text) (n : Nat) (s : Text) :
    runFrom rule whole n true s ≠ (n, .word) := by
  intro h
  have hwalk := runFrom_nameWalk rule whole n s
  rw [h] at hwalk
  rcases hwalk with hname | hlonger | ⟨hdot, -⟩
  · cases hname
  · exact absurd hlonger (Nat.lt_irrefl n)
  · cases hdot

/-- A word is no name. -/
theorem isName_of_run_word (h : run rule s = (n, .word)) : isName (s.take n) = false := by
  by_contra hnot
  have hname := Bool.eq_true_of_not_eq_false hnot
  have hle : n ≤ s.length := by
    have hrun := (runFrom_le rule s 0 true s).2
    rw [← run, h, Nat.zero_add] at hrun
    exact hrun
  have hfront := namePrefix_of_front (List.take_prefix n s) hname
  rw [List.length_take_of_le hle] at hfront
  rw [runFrom_namePrefix rule hfront] at h
  exact runFrom_ne_word rule s n _ h

/-! ## Names before dots -/

/-- A run that ends before a dot has one behind it. -/
theorem dot_of_run_beforeDot (h : run rule s = (n, .beforeDot)) : s[n]? = some (Text.byte '.') := by
  obtain ⟨-, hstop⟩ := run_stops h Shape.noConfusion
  have hwalk := runFrom_nameWalk rule s n (s.drop n)
  rw [hstop] at hwalk
  rcases hwalk with hname | hlonger | ⟨-, r, rest, hnext, hdot⟩
  · cases hname
  · exact absurd hlonger (Nat.lt_irrefl n)
  obtain ⟨b, hdrop, rfl, -⟩ := Text.next?_ascii hnext (by rw [hdot]; decide)
  have hb : b = Text.byte '.' := UInt8.toNat_inj.mp hdot
  rw [← hb, ← Nat.add_zero n, ← List.getElem?_drop, hdrop]
  rfl

/-- A bound name before a dot ends the run. -/
theorem run_eq_beforeDot {isBound : Text → Bool} {name : Text} (hfront : name <+: s) (hname : isName name = true)
    (hbound : rule.bound = some isBound) (hisBound : isBound name = true)
    (hdot : s[name.length]? = some (Text.byte '.')) : run rule s = (name.length, .beforeDot) := by
  obtain ⟨tail, rfl⟩ := hfront
  rw [List.getElem?_append_right (Nat.le_refl _), Nat.sub_self] at hdot
  obtain ⟨u, rfl⟩ : ∃ u, tail = Text.byte '.' :: u := by
    cases tail with
    | nil => cases hdot
    | cons b u => exact ⟨u, by rw [Option.some.inj hdot]⟩
  have hnext : Text.next? (Text.byte '.' :: u) = some (⟨'.'.toNat, 1⟩, u) := Text.next?_cons_ascii (by decide) u
  have hsplits : rule.splits name '.'.toNat = true := by
    rw [RunRule.splits, hbound]
    simpa using hisBound
  have hpos := length_pos_of_isName hname
  rw [runFrom_namePrefix rule (namePrefix_append hname _), List.drop_left, runFrom]
  split
  · rename_i hnone
    rw [hnext] at hnone
    cases hnone
  · rename_i r rest hsome
    rw [hnext] at hsome
    obtain ⟨rfl, rfl⟩ := Prod.mk.inj (Option.some.inj hsome)
    have hsplits' : rule.splits name 46 = true := hsplits
    simp [hsplits', hpos, isWordChar, isSeparatorChar]

/-! ## What no name starts with -/

/-- The ASCII characters that start the tokens which are looked for before names are. -/
def leads : List UInt8 := Text.ofString "+-*/=!<>|0123456789"

theorem not_isNameStart_of_lead {b : UInt8} (hb : b ∈ leads) (hhead : s.head? = some b)
    (hnext : s.next? = some (r, rest)) : isNameStart r.code = false := by
  have hall : ∀ b ∈ leads, b < 0x80 ∧ isNameStart b.toNat = false := by decide +kernel
  obtain ⟨hascii, hstart⟩ := hall b hb
  obtain ⟨tail, rfl⟩ := List.head?_eq_some_iff.mp hhead
  rw [Text.next?_cons_ascii hascii] at hnext
  obtain ⟨rfl, -⟩ := Prod.mk.inj (Option.some.inj hnext)
  exact hstart

theorem ofOperator?_lead (h : Kind.ofOperator? s = some k) : ∃ b ∈ leads, s.head? = some b := by
  have hall : ∀ entry ∈ Kind.operators, ∃ b ∈ leads, entry.1.head? = some b := by decide +kernel
  exact hall (s, k) (mem_of_lookup h)

theorem isNumber_lead (h : isNumber s = true) : ∃ b ∈ leads, s.head? = some b := by
  have hdigits : ∀ b ∈ (List.range 10).map fun d => UInt8.ofNat (48 + d), b ∈ leads := by decide +kernel
  have hdigit {b : UInt8} (hb : Text.isDigit b = true) : b ∈ leads := by
    simp only [Text.isDigit, Bool.and_eq_true, decide_eq_true_eq, UInt8.le_iff_toNat_le] at hb
    have hrange : 48 ≤ b.toNat ∧ b.toNat ≤ 57 := hb
    refine hdigits b (List.mem_map.mpr ⟨b.toNat - 48, List.mem_range.mpr (by omega), ?_⟩)
    rw [Nat.add_sub_cancel' hrange.1, UInt8.ofNat_toNat]
  rw [isNumber] at h
  have hwhole : (Text.dropLead "-" s).takeWhile Text.isDigit ≠ [] := by
    intro hempty
    rw [hempty] at h
    split at h
    · cases h
    · rw [List.isEmpty_nil, Bool.not_true, Bool.and_false] at h
      cases h
  rw [Text.dropLead] at hwhole
  split at hwhole
  · rename_i hminus
    obtain ⟨tail, rfl⟩ := List.isPrefixOf_iff_prefix.mp hminus
    exact ⟨Text.byte '-', by decide +kernel, rfl⟩
  · cases s with
    | nil => exact absurd rfl hwhole
    | cons b tail =>
      refine ⟨b, hdigit ?_, rfl⟩
      by_contra hb
      rw [List.takeWhile_cons_of_neg hb] at hwhole
      exact hwhole rfl

/-- A bound name before a dot is a token, whatever else is accepted. -/
theorem Classified.eq_beforeDot {isBound : Text → Bool} {name : Text} (h : Classified accept bound r s k n)
    (hnext : s.next? = some (r, rest)) (haccept : accept.has .beforeDot = true) (hbound : bound = some isBound)
    (hfront : name <+: s) (hname : isName name = true) (hisBound : isBound name = true)
    (hdot : s[name.length]? = some (Text.byte '.')) : k = .beforeDot := by
  have hpos := length_pos_of_isName hname
  have hstart := isNameStart_of_namePrefix (namePrefix_of_front hfront hname) hpos hnext
  have hrun : run (ruleOf accept bound) s = (name.length, .beforeDot) := by
    refine run_eq_beforeDot hfront hname ?_ hisBound hdot
    rw [ruleOf, if_pos haccept, hbound]
  have hnolead : ¬ ∃ b ∈ leads, s.head? = some b := by
    rintro ⟨b, hb, hhead⟩
    rw [not_isNameStart_of_lead hb hhead hnext] at hstart
    cases hstart
  have htake {m : Nat} {t : Text} (hlead : ∃ b ∈ leads, (t.take m).head? = some b) : ∃ b ∈ leads, t.head? = some b := by
    obtain ⟨b, hb, hhead⟩ := hlead
    obtain ⟨tail, htail⟩ := List.head?_eq_some_iff.mp hhead
    refine ⟨b, hb, ?_⟩
    rw [← List.take_append_drop m t, htail]
    rfl
  cases h with
  | punctuation h =>
    have hall : ∀ c ∈ "\n();:'\".".toList.map Char.toNat, isNameStart c = false := by decide
    rw [hall _ (punctuation?_char h)] at hstart
    cases hstart
  | regex _ hslashes =>
    obtain ⟨tail, rfl⟩ := List.isPrefixOf_iff_prefix.mp hslashes
    exact absurd ⟨Text.byte '/', by decide +kernel, rfl⟩ hnolead
  | operator h => exact absurd (htake (ofOperator?_lead (operator?_eq_some h).1)) hnolead
  | number _ h => exact absurd (htake (isNumber_lead h)) hnolead
  | glued _ h => exact absurd (htake (htake (ofOperator?_lead (operator?_eq_some (gluedOperator?_eq_some h).2.2).1))) hnolead
  | illegal h =>
    rw [hrun] at h
    exact absurd h (Nat.ne_of_gt hpos)
  | beforeDot => rfl
  | keyword _ h | argName _ h | assignable _ h | identifier _ h | word _ h | badWord _ h =>
    rw [hrun] at h
    cases h

/-! ## Answers -/

/-- A question to the scanner, with the scope that the bound names come from. -/
structure Question where
  pos : Nat
  accept : KindSet
  scope : Option View

namespace Question

/-- The names that are bound, if there is a scope. -/
def names (q : Question) : Option (Text → Bool) := q.scope.map (·.has)

/-- What of a question is remembered. -/
def query (q : Question) : Query := ⟨q.pos, q.accept, (q.scope.map (·.hash)).getD 0⟩

/-- Where a token starts that answers the question. -/
def start (src : Text) (q : Question) : Nat := skipBlank src q.pos (q.accept.has .newline)

/-- The first question that was asked in the same words. -/
def first (asked : List Question) (q : Question) : Question := (asked.find? (·.query == q.query)).getD q

end Question

/-- What holds of the token that answers a question where some names are bound. -/
structure Answer (src : Text) (q : Question) (names : Option (Text → Bool)) (t : Token) : Prop where
  eof_iff : t.kind = .eof ↔
    ∀ b ∈ src.drop q.pos, IsBlank b ∧ (b = Text.byte '\n' → q.accept.has .newline = false)
  eof_eq : t.kind = .eof → t = mark .eof src.length
  stands : t.kind ≠ .eof → Stands src q.pos (q.accept.has .newline) t
  boundary : src.Boundary q.pos → src.Boundary t.start ∧ src.Boundary t.stop
  name : t.kind ∈ [Kind.identifier, .assignable, .beforeDot, .boolean] ∨ t.kind.isKeyword = true →
    isName t.text = true
  argName : t.kind = .argName → ∃ name, isName name = true ∧ t.text = name ++ [Text.byte '=']
  word : t.kind = .word → isName t.text = false
  beforeDot_iff : t.kind = .beforeDot ↔ q.accept.has .beforeDot = true ∧
    ∃ isBound name, names = some isBound ∧ LongestName (src.drop (q.start src)) name ∧ isBound name = true ∧
      (src.drop (q.start src))[name.length]? = some (Text.byte '.')

theorem isName_of_ofKeyword? (h : Kind.ofKeyword? s = some k) : isName s = true := by
  have hall : ∀ entry ∈ Kind.keywords, isName entry.1 = true := by decide +kernel
  exact hall (s, k) (mem_of_lookup h)

theorem Classified.isName (h : Classified accept bound r s k n)
    (hk : k ∈ [Kind.identifier, .assignable, .beforeDot, .boolean] ∨ k.isKeyword = true) :
    Token.isName (s.take n) = true := by
  have hadmits := h.admits
  simp only [List.mem_cons, List.not_mem_nil, or_false] at hk
  rcases hk with (hk | hk | hk | hk) | hk
  · exact (hadmits.name (.inl hk)).1
  · exact (hadmits.name (.inr hk)).1
  · subst hk
    obtain ⟨hpos, hrun⟩ := h.run_beforeDot
    exact (longestName_of_run hpos hrun Shape.noConfusion).isName
  · exact isName_of_ofKeyword? (hadmits.keyword (.inr hk))
  · exact isName_of_ofKeyword? (hadmits.keyword (.inl hk))

theorem Classified.beforeDot_iff (hnext : s.next? = some (r, rest)) (h : Classified accept bound r s k n) :
    k = .beforeDot ↔ accept.has .beforeDot = true ∧ ∃ isBound name, bound = some isBound ∧ LongestName s name ∧
      isBound name = true ∧ s[name.length]? = some (Text.byte '.') := by
  constructor
  · rintro rfl
    obtain ⟨hpos, hrun⟩ := h.run_beforeDot
    have hle := (run_stops hrun Shape.noConfusion).1.le
    obtain ⟨isBound, hbound, hisBound⟩ := bound_of_run_beforeDot hrun
    rw [ruleOf] at hbound
    dsimp only at hbound
    split at hbound
    · rename_i haccept
      refine ⟨haccept, isBound, s.take n, hbound, longestName_of_run hpos hrun Shape.noConfusion, hisBound, ?_⟩
      rw [List.length_take_of_le hle]
      exact dot_of_run_beforeDot hrun
    · cases hbound
  · rintro ⟨haccept, isBound, name, hbound, hname, hisBound, hdot⟩
    exact h.eq_beforeDot hnext haccept hbound hname.front hname.isName hisBound hdot

theorem cut_text (src : Text) (k : Kind) (pos n : Nat) : (cut src k pos (pos + n)).text = (src.drop pos).take n := by
  rw [cut, Text.extract, Nat.add_sub_cancel_left]

theorem Scanned.isName (h : Scanned src pos accept bound t)
    (hk : t.kind ∈ [Kind.identifier, .assignable, .beforeDot, .boolean] ∨ t.kind.isKeyword = true) :
    Token.isName t.text = true := by
  cases h with
  | eof =>
    change Kind.eof ∈ _ ∨ Kind.eof.isKeyword = true at hk
    exact absurd hk (by decide)
  | token _ h =>
    rw [cut_text]
    exact h.isName hk

/-- The scanner keeps its contract. -/
theorem Scanned.answer {q : Question} {names : Option (Text → Bool)} (hpos : q.pos ≤ src.length)
    (h : Scanned src q.pos q.accept names t) : Answer src q names t where
  eof_iff := h.eof_iff.trans (length_le_skipBlank hpos)
  eof_eq heof := by
    cases h with
    | eof => rfl
    | token _ h => exact absurd heof h.ne_eof
  stands := h.stands
  boundary := h.boundary
  name := h.isName
  argName hk := by
    obtain ⟨name, htext, hname, -⟩ := (h.stands (by rw [hk]; exact Kind.noConfusion)).admits.argName hk
    exact ⟨name, hname, htext⟩
  word hk := by
    cases h with
    | eof => cases hk
    | @token _ _ k _ _ h =>
      obtain rfl : k = .word := hk
      rw [cut_text]
      exact isName_of_run_word h.run_word.1
  beforeDot_iff := by
    cases h with
    | eof hend =>
      refine ⟨fun hk => (nomatch hk), ?_⟩
      -- No name is left at the end of the source.
      rintro ⟨-, isBound, name, -, hname, -⟩
      have hle := hname.front.length_le
      rw [Question.start, List.drop_eq_nil_of_le hend, List.length_nil] at hle
      exact absurd (length_pos_of_isName hname.isName) (Nat.not_lt.mpr hle)
    | token hnext h => exact h.beforeDot_iff hnext

/-! ## Remembered answers -/

namespace Memo

/-- The memo after some questions about a source. -/
def after (src : Text) (asked : List Question) : Memo :=
  asked.foldl (fun m q => (m.ask src q.pos q.accept q.scope).2) empty

/-- The token that answers a question after some others. -/
def answer (src : Text) (asked : List Question) (q : Question) : Token :=
  ((after src asked).ask src q.pos q.accept q.scope).1

/-- A memo remembers one more answer if nothing was asked in the same words before. -/
theorem answers_ask (m : Memo) (src : Text) (q : Question) (query : Query) :
    (m.ask src q.pos q.accept q.scope).2.answers[query]? =
      m.answers[query]?.or (if q.query = query then some (scan src q.pos q.accept q.names) else none) := by
  have hquery : q.query = ⟨q.pos, q.accept, (q.scope.map (·.hash)).getD 0⟩ := rfl
  rw [ask, ← hquery]
  dsimp only
  cases hm : m.answers[q.query]? with
  | some tok =>
    dsimp only
    split
    · rename_i heq
      rw [← heq, hm, Option.some_or]
    · rw [Option.or_none]
  | none =>
    dsimp only
    rw [Std.HashMap.getElem?_insert]
    by_cases heq : q.query = query
    · rw [if_pos heq, if_pos (beq_iff_eq.mpr heq), ← heq, hm, Option.none_or]
      rfl
    · rw [if_neg heq, if_neg (mt beq_iff_eq.mp heq), Option.or_none]

/-- What is remembered was scanned for the first question that was asked in these words. -/
theorem answers_after (src : Text) (asked : List Question) (query : Query) :
    (after src asked).answers[query]? =
      (asked.find? (·.query == query)).map fun p => scan src p.pos p.accept p.names := by
  induction asked using List.reverseRecOn with
  | nil => exact Std.HashMap.getElem?_empty
  | append_singleton asked q ih =>
    have hlast : after src (asked ++ [q]) = ((after src asked).ask src q.pos q.accept q.scope).2 := by
      rw [after, List.foldl_append]
      rfl
    rw [hlast, answers_ask, ih, List.find?_append, List.find?_singleton]
    cases asked.find? (·.query == query) with
    | some p => rfl
    | none =>
      by_cases heq : q.query = query
      · simp [heq]
      · simp [heq]

/-- The answer to a question is that of the scanner to the first one that was asked in the same words. -/
theorem answer_eq_scan (src : Text) (asked : List Question) (q : Question) :
    answer src asked q = scan src q.pos q.accept (q.first asked).names := by
  have hremembered := answers_after src asked q.query
  have hquery : q.query = ⟨q.pos, q.accept, (q.scope.map (·.hash)).getD 0⟩ := rfl
  rw [answer, ask, ← hquery, hremembered, Question.first]
  cases hfirst : asked.find? (·.query == q.query) with
  | none => rfl
  | some p =>
    have hsame : p.query = q.query := by simpa using List.find?_some hfirst
    have hpos : p.pos = q.pos := congrArg Query.pos hsame
    have haccept : p.accept = q.accept := congrArg Query.accept hsame
    rw [← hpos, ← haccept]
    rfl

/-- A remembered token was scanned as well, if perhaps for another scope. -/
theorem answer_scanned (src : Text) (asked : List Question) (q : Question) :
    Scanned src q.pos q.accept (q.first asked).names (answer src asked q) := by
  rw [answer_eq_scan]
  exact scanned ..

/-- The first question in the same words was asked where the same names are bound if all of them were. -/
theorem names_first {asked : List Question} {q : Question}
    (hsame : ∀ p ∈ asked, p.query = q.query → p.names = q.names) : (q.first asked).names = q.names := by
  rw [Question.first]
  cases hfirst : asked.find? (·.query == q.query) with
  | none => rfl
  | some p => exact hsame p (List.mem_of_find?_eq_some hfirst) (by simpa using List.find?_some hfirst)

/-- Whatever was asked before, the answer to a question within the source keeps the contract for the names that
were bound where the same words were asked first. These are the names that are bound now, as long as scopes
that were asked about under one fingerprint bind the same names. Only bound names before a dot depend on
that. -/
theorem next_answer {asked : List Question} {q : Question} (hpos : q.pos ≤ src.length) :
    Answer src q (q.first asked).names (answer src asked q) ∧
      ((∀ p ∈ asked, p.query = q.query → p.names = q.names) → Answer src q q.names (answer src asked q)) := by
  have hanswer := (answer_scanned src asked q).answer hpos
  refine ⟨hanswer, fun hsame => ?_⟩
  rwa [names_first hsame] at hanswer

/-- Two scopes with one fingerprint. The name `toorobaacnalfin` is bound in the second one and stands before a
dot, but the answer was remembered for the first one, where it is not bound. -/
theorem next_answer_collision :
    let src := Text.ofString "toorobaacnalfin.b"
    let binding (name : String) : View :=
      let scope := (Context.new Digest.fingerprint).bindIn Digest.fingerprint Scope.root [Text.ofString name]
      ⟨scope.has, scope.hash⟩
    let earlier : Question := ⟨0, .of [.beforeDot, .word], some (binding "toorjabaopbbooe")⟩
    let q : Question := ⟨0, .of [.beforeDot, .word], some (binding "toorobaacnalfin")⟩
    q.pos ≤ src.length ∧ Answer src q earlier.names (answer src [earlier] q) ∧ Answer src q q.names (answer src [] q) ∧
      (answer src [earlier] q).kind = .word ∧ ¬ Answer src q q.names (answer src [earlier] q) := by
  intro src binding earlier q
  have hquery : earlier.query = q.query := by decide +kernel
  have hfirst : q.first [earlier] = earlier := by
    rw [Question.first, List.find?_singleton, if_pos (beq_iff_eq.mpr hquery)]
    rfl
  have hpos : q.pos ≤ src.length := Nat.zero_le _
  have hearlier : Answer src q (q.first [earlier]).names (answer src [earlier] q) := (next_answer hpos).1
  rw [hfirst] at hearlier
  have hfresh : Answer src q q.names (answer src [] q) := (next_answer hpos).2 (List.forall_mem_nil _)
  have hword : (answer src [earlier] q).kind = .word := by
    rw [answer_eq_scan, hfirst]
    decide +kernel
  have hdot : (answer src [] q).kind = .beforeDot := by
    rw [answer_eq_scan]
    decide +kernel
  refine ⟨hpos, hearlier, hfresh, hword, fun hanswer => ?_⟩
  -- The name is bound now, so that the answer should be the one that is given without the earlier question.
  have hagain := hanswer.beforeDot_iff.mpr (hfresh.beforeDot_iff.mp hdot)
  rw [hword] at hagain
  cases hagain

end Memo
end Bareword.Token
