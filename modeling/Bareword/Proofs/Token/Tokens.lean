import Bareword.Proofs.Token.Runs

/-! # What tokens are

Where a token lies and what its text has to do with its kind, for every question to the scanner.

* `Classified`: the ways in which the front of a text becomes a token.
* `Scanned`: the answer of the scanner, which is the end of the source or a part of it.
* `Kind.Admits`, `Stands`: what a token spells, and where it stands.
* `classify_boundary`: what two questions at one place have to agree on.
-/

namespace Bareword.Token
set_option autoImplicit false

/-! ## The front of a text -/

/-- How a run of word characters is read for a token. -/
def ruleOf (accept : KindSet) (bound : Option (Text → Bool)) : RunRule where
  allowWord := accept.has .word
  stopAtEq := accept.has .argName || accept.has .assignable
  splitOps := !accept.has .argName
  bound := if accept.has .beforeDot then bound else none

/-- The front of `s`, which starts with the rune `r`, is a token of a kind and a length. -/
inductive Classified (accept : KindSet) (bound : Option (Text → Bool)) (r : Rune) (s : Text) :
    Kind → Nat → Prop where
  | punctuation {k : Kind} (h : punctuation? accept r.code = some k) : Classified accept bound r s k 1
  | regex {n : Nat} (haccept : accept.has .regex = true)
      (hslashes : (Text.ofString "//").isPrefixOf s = true) (h : regexLength? s = some n) :
      Classified accept bound r s .regex n
  | operator {k : Kind} (h : operator? accept (s.take (run .whole s).1) = some k) :
      Classified accept bound r s k (run .whole s).1
  | number (haccept : accept.has .number = true) (h : isNumber (s.take (run .whole s).1) = true) :
      Classified accept bound r s .number (run .whole s).1
  | glued {k : Kind} {n : Nat} (haccept : accept.has .word = false)
      (h : gluedOperator? accept (s.take (run .whole s).1) = some (k, n)) : Classified accept bound r s k n
  | illegal (h : (run (ruleOf accept bound) s).1 = 0) : Classified accept bound r s .illegal r.width
  | beforeDot {n : Nat} (hpos : 0 < n) (h : run (ruleOf accept bound) s = (n, .beforeDot)) :
      Classified accept bound r s .beforeDot n
  | keyword {k : Kind} {n : Nat} (hpos : 0 < n) (h : run (ruleOf accept bound) s = (n, .name))
      (hkeyword : Kind.ofKeyword? (s.take n) = some k) : Classified accept bound r s k n
  | argName {n : Nat} (hpos : 0 < n) (h : run (ruleOf accept bound) s = (n, .name))
      (hkeyword : Kind.ofKeyword? (s.take n) = none) (haccept : accept.has .argName = true)
      (hequals : (s.drop n).head? = some (Text.byte '=')) : Classified accept bound r s .argName (n + 1)
  | assignable {n : Nat} (hpos : 0 < n) (h : run (ruleOf accept bound) s = (n, .name))
      (hkeyword : Kind.ofKeyword? (s.take n) = none) (haccept : accept.has .assignable = true) :
      Classified accept bound r s .assignable n
  | identifier {n : Nat} (hpos : 0 < n) (h : run (ruleOf accept bound) s = (n, .name))
      (hkeyword : Kind.ofKeyword? (s.take n) = none) : Classified accept bound r s .identifier n
  | word {n : Nat} (hpos : 0 < n) (h : run (ruleOf accept bound) s = (n, .word))
      (haccept : accept.has .word = true) : Classified accept bound r s .word n
  | badWord {n : Nat} (hpos : 0 < n) (h : run (ruleOf accept bound) s = (n, .word))
      (haccept : accept.has .word = false) : Classified accept bound r s .illegal n

theorem classified_nameToken {accept : KindSet} {bound : Option (Text → Bool)} {r : Rune} {s : Text} {n : Nat}
    (hpos : 0 < n) (h : run (ruleOf accept bound) s = (n, .name)) :
    Classified accept bound r s (nameToken accept s n).1 (nameToken accept s n).2 := by
  rw [nameToken]
  cases hk : Kind.ofKeyword? (s.take n) with
  | some k => exact .keyword hpos h hk
  | none =>
    dsimp only
    split
    · rename_i hname
      rw [Bool.and_eq_true, beq_iff_eq] at hname
      exact .argName hpos h hk hname.2 hname.1
    · split
      · rename_i hassign
        rw [Bool.and_eq_true] at hassign
        exact .assignable hpos h hk hassign.1
      · exact .identifier hpos h hk

theorem classified (accept : KindSet) (bound : Option (Text → Bool)) (r : Rune) (s : Text) :
    Classified accept bound r s (classify accept bound r s).1 (classify accept bound r s).2 := by
  rw [classify]
  cases hp : punctuation? accept r.code with
  | some k => exact .punctuation hp
  | none =>
    dsimp only
    cases hregex : (if accept.has .regex && List.isPrefixOf (Text.ofString "//") s then regexLength? s
        else none) with
    | some n =>
      split at hregex
      · rename_i hslashes
        rw [Bool.and_eq_true] at hslashes
        exact .regex hslashes.1 hslashes.2 hregex
      · cases hregex
    | none =>
      dsimp only
      cases hop : operator? accept (s.take (run .whole s).1) with
      | some k => exact .operator hop
      | none =>
        dsimp only
        split
        · rename_i hnumber
          rw [Bool.and_eq_true] at hnumber
          exact .number hnumber.2 hnumber.1
        · cases hglued : (if accept.has .word then none
              else gluedOperator? accept (s.take (run .whole s).1)) with
          | some found =>
            split at hglued
            · cases hglued
            · rename_i hword
              exact .glued (by simpa using hword) hglued
          | none =>
            dsimp only
            obtain ⟨n, shape, hrun⟩ : ∃ n shape, run (ruleOf accept bound) s = (n, shape) := ⟨_, _, rfl⟩
            have hrule := hrun
            rw [ruleOf] at hrule
            rw [hrule]
            cases n with
            | zero => exact .illegal (congrArg Prod.fst hrun)
            | succ n =>
              have hpos := Nat.succ_pos n
              cases shape with
              | beforeDot => exact .beforeDot hpos hrun
              | name => exact classified_nameToken hpos hrun
              | word =>
                cases hword : accept.has .word with
                | true => exact .word hpos hrun hword
                | false => exact .badWord hpos hrun hword

/-- The answer of the scanner: a part of the source after some blanks, or the end of the source. -/
inductive Scanned (src : Text) (pos : Nat) (accept : KindSet) (bound : Option (Text → Bool)) : Token → Prop where
  | eof (h : src.length ≤ skipBlank src pos (accept.has .newline)) :
      Scanned src pos accept bound (mark .eof src.length)
  | token {r : Rune} {rest : Text} {k : Kind} {n : Nat}
      (hnext : Text.next? (src.drop (skipBlank src pos (accept.has .newline))) = some (r, rest))
      (h : Classified accept bound r (src.drop (skipBlank src pos (accept.has .newline))) k n) :
      Scanned src pos accept bound
        (cut src k (skipBlank src pos (accept.has .newline)) (skipBlank src pos (accept.has .newline) + n))

theorem scanned (src : Text) (pos : Nat) (accept : KindSet) (bound : Option (Text → Bool)) :
    Scanned src pos accept bound (scan src pos accept bound) := by
  rw [scan]
  dsimp only
  cases hnext : Text.next? (src.drop (skipBlank src pos (accept.has .newline))) with
  | none => exact .eof (List.drop_eq_nil_iff.mp (Text.next?_eq_none.mp hnext))
  | some found => exact .token hnext (classified accept bound found.1 _)

/-! ## Where tokens lie -/

theorem find?_eq_some {pat t : Text} {n : Nat} (h : Text.find? pat t = some n) :
    pat.isPrefixOf (t.drop n) = true := by
  induction t generalizing n with
  | nil =>
    rw [Text.find?] at h
    split at h
    · cases h
      rename_i hempty
      rw [List.isEmpty_iff.mp hempty]
      rfl
    · cases h
  | cons b rest ih =>
    rw [Text.find?] at h
    split at h
    · cases h
      assumption
    · obtain ⟨m, hm, rfl⟩ := Option.map_eq_some_iff.mp h
      exact ih hm

theorem findLast?_isSome {pat t : Text} {n : Nat} (hn : n < t.length)
    (h : pat.isPrefixOf (t.drop n) = true) : (Text.findLast? pat t).isSome = true := by
  induction t generalizing n with
  | nil => cases hn
  | cons b rest ih =>
    rw [Text.findLast?]
    cases hlast : Text.findLast? pat rest with
    | some m => rfl
    | none =>
      cases n with
      | zero =>
        have hfront : pat.isPrefixOf (b :: rest) = true := h
        dsimp only
        rw [if_pos hfront]
        rfl
      | succ n =>
        have hrest := ih (Nat.lt_of_succ_lt_succ hn) h
        rw [hlast] at hrest
        cases hrest

/-- What a regular expression is made of. -/
theorem regexLength?_eq_some {s : Text} {n : Nat} (h : regexLength? s = some n) :
    ∃ m, 0 < m ∧ n = 2 + m + 2 + (((s.drop 2).drop (m + 2)).takeWhile fun b => isLower b.toNat).length ∧
      n ≤ s.length ∧ (Text.ofString "//").isPrefixOf ((s.drop 2).drop m) = true := by
  rw [regexLength?] at h
  dsimp only at h
  split at h
  · cases h
  · cases h
  · rename_i m hm hfind
    have hat := find?_eq_some hfind
    have hlong : 2 ≤ ((s.drop 2).drop m).length :=
      (List.isPrefixOf_iff_prefix.mp hat).length_le
    have hflags : (((s.drop 2).drop (m + 2)).takeWhile fun b => isLower b.toNat).length ≤
        ((s.drop 2).drop (m + 2)).length := (List.takeWhile_sublist _).length_le
    rw [List.length_drop, List.length_drop] at hlong hflags
    have hends {closed : Bool} {length : Nat} (h : (if closed then some length else none) = some n) :
        length = n := by
      cases closed with
      | false => cases h
      | true => exact Option.some.inj h
    split at h
    · cases h
    · have hn := hends h
      refine ⟨m, Nat.pos_of_ne_zero hm, hn.symm, ?_, hat⟩
      omega

theorem ofOperator?_ne_nil {t : Text} {k : Kind} (h : Kind.ofOperator? t = some k) : t ≠ [] := by
  rintro rfl
  revert h
  decide +revert

theorem operator?_eq_some {accept : KindSet} {t : Text} {k : Kind} (h : operator? accept t = some k) :
    Kind.ofOperator? t = some k ∧ accept.has k = true :=
  Option.filter_eq_some_iff.mp h

theorem gluedOperator?_eq_some {accept : KindSet} {t : Text} {k : Kind} {n : Nat}
    (h : gluedOperator? accept t = some (k, n)) :
    0 < n ∧ n ≤ t.length ∧ operator? accept (t.take n) = some k := by
  rw [gluedOperator?] at h
  rcases Option.or_eq_some_iff.mp h with h | ⟨-, h⟩
  all_goals
    split at h
    · obtain ⟨k', hk, hkn⟩ := Option.map_eq_some_iff.mp h
      cases hkn
      exact ⟨by omega, by assumption, hk⟩
    · cases h

theorem isNumber_ne_nil {t : Text} (h : isNumber t = true) : t ≠ [] := by
  rintro rfl
  cases h

theorem Classified.length {accept : KindSet} {bound : Option (Text → Bool)} {r : Rune} {s rest : Text}
    {k : Kind} {n : Nat} (hnext : s.next? = some (r, rest)) (h : Classified accept bound r s k n) :
    0 < n ∧ n ≤ s.length := by
  obtain ⟨-, hwidth, hle⟩ := Text.next?_eq_some hnext
  have hrun (rule : RunRule) : (run rule s).1 ≤ s.length := by
    have := (runFrom_le rule s 0 true s).2
    rwa [Nat.zero_add] at this
  have hwhole : s.take (run .whole s).1 ≠ [] → 0 < (run .whole s).1 := by
    intro hne
    refine Nat.pos_of_ne_zero fun hzero => hne ?_
    rw [hzero, List.take_zero]
  cases h with
  | punctuation => omega
  | regex _ _ h =>
    obtain ⟨m, -, hlow, hhigh, -⟩ := regexLength?_eq_some h
    omega
  | operator h => exact ⟨hwhole (ofOperator?_ne_nil (operator?_eq_some h).1), hrun _⟩
  | number _ h => exact ⟨hwhole (isNumber_ne_nil h), hrun _⟩
  | glued _ h =>
    obtain ⟨hpos, hshort, -⟩ := gluedOperator?_eq_some h
    rw [List.length_take] at hshort
    omega
  | illegal => exact ⟨hwidth, hle⟩
  | @argName n _ _ _ _ hequals =>
    have hmore : ¬ s.length ≤ n := by
      intro hle
      rw [List.drop_eq_nil_of_le hle] at hequals
      cases hequals
    omega
  | beforeDot hpos h | keyword hpos h | assignable hpos h | identifier hpos h | word hpos h
  | badWord hpos h =>
    have := hrun (ruleOf accept bound)
    rw [h] at this
    exact ⟨hpos, this⟩

/-! ## What tokens spell -/

/-- A name that is no reserved word. -/
def Bindable (t : Text) : Prop := isName t = true ∧ Kind.ofKeyword? t = none

/-- What the text of a token of a kind looks like. -/
structure Kind.Admits (k : Kind) (t : Text) : Prop where
  operator (h : k.isOperator = true ∨ k = .pipe) : Kind.ofOperator? t = some k
  keyword (h : k.isKeyword = true ∨ k = .boolean) : Kind.ofKeyword? t = some k
  name (h : k = .identifier ∨ k = .assignable) : Bindable t
  argName (h : k = .argName) : ∃ name, t = name ++ [Text.byte '='] ∧ Bindable name
  regex (h : k = .regex) : (Text.findLast? "//" (Text.dropLead "//" t)).isSome = true

/-- The kinds that single characters have. -/
def punctuationKinds : List Kind :=
  [.newline, .openParen, .closeParen, .semicolon, .colon, .quote, .dot]

theorem punctuation?_mem {accept : KindSet} {c : Nat} {k : Kind} (h : punctuation? accept c = some k) :
    k ∈ punctuationKinds := by
  rw [punctuation?] at h
  repeat' split at h
  all_goals cases h
  all_goals decide

/-- What a table answers stands in it. -/
theorem mem_of_lookup {table : List (Text × Kind)} {t : Text} {k : Kind} (h : table.lookup t = some k) :
    (t, k) ∈ table := by
  obtain ⟨before, after, rfl, -⟩ := List.lookup_eq_some_iff.mp h
  exact List.mem_append_right before List.mem_cons_self

theorem ofOperator?_mem {t : Text} {k : Kind} (h : Kind.ofOperator? t = some k) :
    k ∈ Kind.operators.map Prod.snd :=
  List.mem_map.mpr ⟨(t, k), mem_of_lookup h, rfl⟩

theorem ofKeyword?_mem {t : Text} {k : Kind} (h : Kind.ofKeyword? t = some k) :
    k ∈ Kind.keywords.map Prod.snd :=
  List.mem_map.mpr ⟨(t, k), mem_of_lookup h, rfl⟩

theorem Classified.ne_eof {accept : KindSet} {bound : Option (Text → Bool)} {r : Rune} {s : Text}
    {k : Kind} {n : Nat} (h : Classified accept bound r s k n) : k ≠ .eof := by
  have hpunct : ∀ k ∈ punctuationKinds, k ≠ Kind.eof := by decide
  have hoperator : ∀ k ∈ Kind.operators.map Prod.snd, k ≠ Kind.eof := by decide
  have hkeyword : ∀ k ∈ Kind.keywords.map Prod.snd, k ≠ Kind.eof := by decide
  cases h with
  | punctuation h => exact hpunct k (punctuation?_mem h)
  | operator h => exact hoperator k (ofOperator?_mem (operator?_eq_some h).1)
  | glued _ h =>
    obtain ⟨-, -, h⟩ := gluedOperator?_eq_some h
    exact hoperator k (ofOperator?_mem (operator?_eq_some h).1)
  | keyword _ _ h => exact hkeyword k (ofKeyword?_mem h)
  | _ => exact Kind.noConfusion

/-- Operators are tokens only where they are accepted. -/
theorem Classified.accepts {accept : KindSet} {bound : Option (Text → Bool)} {r : Rune} {s : Text}
    {k : Kind} {n : Nat} (h : Classified accept bound r s k n) (hk : k ∈ Kind.operators.map Prod.snd) :
    accept.has k = true := by
  have hpunct : ∀ k ∈ punctuationKinds, k ∉ Kind.operators.map Prod.snd := by decide
  have hkeyword : ∀ k ∈ Kind.keywords.map Prod.snd, k ∉ Kind.operators.map Prod.snd := by decide
  cases h with
  | punctuation h => exact absurd hk (hpunct k (punctuation?_mem h))
  | operator h => exact (operator?_eq_some h).2
  | glued _ h =>
    obtain ⟨-, -, h⟩ := gluedOperator?_eq_some h
    exact (operator?_eq_some h).2
  | keyword _ _ h => exact absurd hk (hkeyword k (ofKeyword?_mem h))
  | _ => exact absurd hk (by decide)

/-- A kind that neither an operator nor a keyword has. -/
theorem Kind.Admits.of_plain {k : Kind} {t : Text}
    (h : (k.isOperator || k.isKeyword || k == .pipe || k == .boolean) = false)
    (hname : k = .identifier ∨ k = .assignable → Bindable t)
    (hargName : k = .argName → ∃ name, t = name ++ [Text.byte '='] ∧ Bindable name)
    (hregex : k = .regex → (Text.findLast? "//" (Text.dropLead "//" t)).isSome = true) : k.Admits t := by
  simp only [Bool.or_eq_false_iff, beq_eq_false_iff_ne, ne_eq] at h
  exact {
    operator := by simp [h]
    keyword := by simp [h]
    name := hname
    argName := hargName
    regex := hregex }

theorem Kind.Admits.of_other {k : Kind} {t : Text}
    (h : (k.isOperator || k.isKeyword || k == .pipe || k == .boolean || k == .identifier ||
      k == .assignable || k == .argName || k == .regex) = false) : k.Admits t := by
  simp only [Bool.or_eq_false_iff, beq_eq_false_iff_ne, ne_eq] at h
  exact .of_plain (by simp [h]) (by simp [h]) (by simp [h]) (by simp [h])

theorem Kind.Admits.of_operator {k : Kind} {t : Text} (h : Kind.ofOperator? t = some k) : k.Admits t := by
  have hothers : ∀ k ∈ Kind.operators.map Prod.snd, (k.isKeyword || k == .boolean || k == .identifier ||
      k == .assignable || k == .argName || k == .regex) = false := by decide
  have hk := hothers k (ofOperator?_mem h)
  simp only [Bool.or_eq_false_iff, beq_eq_false_iff_ne, ne_eq] at hk
  constructor <;> simp [hk, h]

theorem Kind.Admits.of_keyword {k : Kind} {t : Text} (h : Kind.ofKeyword? t = some k) : k.Admits t := by
  have hothers : ∀ k ∈ Kind.keywords.map Prod.snd, (k.isOperator || k == .pipe || k == .identifier ||
      k == .assignable || k == .argName || k == .regex) = false := by decide
  have hk := hothers k (ofKeyword?_mem h)
  simp only [Bool.or_eq_false_iff, beq_eq_false_iff_ne, ne_eq] at hk
  constructor <;> simp [hk, h]

theorem Kind.Admits.of_name {k : Kind} {t : Text} (hk : k = .identifier ∨ k = .assignable) (h : Bindable t) :
    k.Admits t := by
  rcases hk with rfl | rfl
  · exact .of_plain (by decide) (fun _ => h) Kind.noConfusion Kind.noConfusion
  · exact .of_plain (by decide) (fun _ => h) Kind.noConfusion Kind.noConfusion

theorem regex_admits {s : Text} {n : Nat} (hslashes : (Text.ofString "//").isPrefixOf s = true)
    (h : regexLength? s = some n) : Kind.regex.Admits (s.take n) := by
  obtain ⟨m, hm, hlow, hhigh, hat⟩ := regexLength?_eq_some h
  have hclosed : (Text.findLast? "//" (Text.dropLead "//" (s.take n))).isSome = true := by
    have hlead : (Text.ofString "//").isPrefixOf (s.take n) = true := by
      rw [List.isPrefixOf_iff_prefix] at hslashes ⊢
      refine List.prefix_take_iff.mpr ⟨hslashes, ?_⟩
      have : (Text.ofString "//").length = 2 := by decide
      omega
    rw [Text.dropLead, if_pos hlead]
    have hbody : (s.take n).drop (Text.ofString "//").length = (s.drop 2).take (n - 2) := by
      rw [show (Text.ofString "//").length = 2 by decide, List.drop_take]
    rw [hbody]
    refine findLast?_isSome (n := m) ?_ ?_
    · rw [List.length_take, List.length_drop]
      omega
    · rw [List.drop_take, List.isPrefixOf_iff_prefix]
      rw [List.isPrefixOf_iff_prefix] at hat
      refine List.prefix_take_iff.mpr ⟨hat, ?_⟩
      have : (Text.ofString "//").length = 2 := by decide
      omega
  exact .of_plain (by decide) (by simp) Kind.noConfusion fun _ => hclosed

theorem Classified.admits {accept : KindSet} {bound : Option (Text → Bool)} {r : Rune} {s : Text}
    {k : Kind} {n : Nat} (h : Classified accept bound r s k n) : k.Admits (s.take n) := by
  have hname {n : Nat} {shape : Shape} (hpos : 0 < n) (h : run (ruleOf accept bound) s = (n, shape))
      (hshape : shape ≠ .word) : isName (s.take n) = true :=
    (run_stops h hshape).1.isName hpos
  cases h with
  | punctuation h =>
    have hothers : ∀ k ∈ punctuationKinds, (k.isOperator || k.isKeyword || k == .pipe || k == .boolean ||
        k == .identifier || k == .assignable || k == .argName || k == .regex) = false := by decide
    exact .of_other (hothers k (punctuation?_mem h))
  | regex _ hslashes h => exact regex_admits hslashes h
  | operator h => exact .of_operator (operator?_eq_some h).1
  | glued _ h =>
    obtain ⟨-, hle, h⟩ := gluedOperator?_eq_some h
    rw [List.take_take, Nat.min_eq_left (Nat.le_trans hle (List.length_take_le _ _))] at h
    exact .of_operator (operator?_eq_some h).1
  | keyword _ _ h => exact .of_keyword h
  | assignable hpos h hk => exact .of_name (.inr rfl) ⟨hname hpos h Shape.noConfusion, hk⟩
  | identifier hpos h hk => exact .of_name (.inl rfl) ⟨hname hpos h Shape.noConfusion, hk⟩
  | @argName n hpos h hk _ hequals =>
    have hspelled : s.take (n + 1) = s.take n ++ [Text.byte '='] := by
      rw [List.head?_drop] at hequals
      rw [List.take_add_one, hequals]
      rfl
    rw [hspelled]
    have hbindable : Bindable (s.take n) := ⟨hname hpos h Shape.noConfusion, hk⟩
    exact .of_plain (by decide) (by simp) (fun _ => ⟨_, rfl, hbindable⟩) Kind.noConfusion
  | number | illegal | beforeDot | word | badWord => exact .of_other (by decide)

/-! ## Where tokens stand -/

/-- A token that is read at an offset: some text after blanks, with the look that its kind asks for. -/
structure Stands (src : Text) (pos : Nat) (keep : Bool) (t : Token) : Prop where
  start_eq : t.start = skipBlank src pos keep
  lt : t.start < t.stop
  le : t.stop ≤ src.length
  text_eq : t.text = src.extract t.start t.stop
  admits : t.kind.Admits t.text

theorem Scanned.stands {src : Text} {pos : Nat} {accept : KindSet} {bound : Option (Text → Bool)} {t : Token}
    (h : Scanned src pos accept bound t) (hkind : t.kind ≠ .eof) :
    Stands src pos (accept.has .newline) t := by
  cases h with
  | eof => exact absurd rfl hkind
  | @token r rest k n hnext h =>
    obtain ⟨hpos, hle⟩ := h.length hnext
    rw [List.length_drop] at hle
    refine ⟨rfl, Nat.lt_add_of_pos_right hpos, ?_, rfl, ?_⟩
    · change skipBlank src pos (accept.has .newline) + n ≤ src.length
      omega
    · have hadmits := h.admits
      rwa [cut, Text.extract, Nat.add_sub_cancel_left]

theorem Scanned.eof_iff {src : Text} {pos : Nat} {accept : KindSet} {bound : Option (Text → Bool)} {t : Token}
    (h : Scanned src pos accept bound t) :
    t.kind = .eof ↔ src.length ≤ skipBlank src pos (accept.has .newline) := by
  cases h with
  | eof h => exact ⟨fun _ => h, fun _ => rfl⟩
  | token hnext h =>
    refine ⟨fun heof => absurd heof h.ne_eof, fun hle => ?_⟩
    rw [List.drop_eq_nil_of_le hle] at hnext
    cases hnext

/-- No line end is skipped in front of a token that is none itself. -/
theorem scan_start {src : Text} {pos : Nat} {accept : KindSet} {bound : Option (Text → Bool)}
    (heof : (scan src pos accept bound).kind ≠ .eof) (hnewline : (scan src pos accept bound).kind ≠ .newline) :
    (scan src pos accept bound).start = skipBlank src pos false := by
  rw [((scanned src pos accept bound).stands heof).start_eq]
  cases hkeep : accept.has .newline with
  | false => rfl
  | true =>
    have hfirst : (src.drop pos)[blankLength true (src.drop pos)]? ≠ some (Text.byte '\n') := by
      intro hbyte
      apply hnewline
      rw [List.getElem?_drop] at hbyte
      have hdrop : src.drop (skipBlank src pos true) =
          Text.byte '\n' :: src.drop (skipBlank src pos true + 1) := by
        rw [List.drop_eq_getElem?_toList_append, skipBlank, hbyte]
        rfl
      have hnext := Text.next?_cons_ascii (b := Text.byte '\n') (by decide)
        (src.drop (skipBlank src pos true + 1))
      rw [scan, hkeep, hdrop]
      dsimp only
      rw [hnext]
      rfl
    rw [skipBlank, skipBlank, blankLength_eq hfirst]

/-! ## Where words end -/

/-- A run over words ends where a word ends. -/
theorem runFrom_endsWord {rule : RunRule} (hword : rule.allowWord = true) (whole : Text) (n : Nat) {s : Text}
    (hends : ∀ r rest, s.next? = some (r, rest) → endsWord r.code rest = true) :
    runFrom rule whole n true s = (n, .name) := by
  rw [runFrom]
  split
  · rfl
  · rename_i r rest hnext
    have hend := hends r rest hnext
    rw [endsWord] at hend
    cases hchar : isWordChar r.code with
    | false => rfl
    | true =>
      rw [hchar, Bool.not_true, Bool.false_or, Bool.and_eq_true] at hend
      have hslash : r.code ≠ '\\'.toNat := by
        intro hslash
        rw [hslash] at hend
        exact absurd hend.1 (by decide)
      simp only [hend, hword, if_neg hslash, Bool.not_true, Bool.false_or, Bool.and_self, Bool.false_eq_true,
        if_true, if_false]

/-- Nothing but the end of a word ends a run over words, if equals signs and bound names do not. -/
theorem endsWord_of_runFrom {rule : RunRule} {whole s : Text} {n : Nat} (hword : rule.allowWord = true)
    (hequals : rule.stopAtEq = false) (hsplits : ∀ c, rule.splits (whole.take n) c = false)
    (h : runFrom rule whole n true s = (n, .name)) {r : Rune} {rest : Text}
    (hnext : s.next? = some (r, rest)) : endsWord r.code rest = true := by
  have hwidth := (Text.next?_eq_some hnext).2.1
  rw [runFrom] at h
  split at h
  · rename_i hnone
    rw [hnext] at hnone
    cases hnone
  · rename_i r' rest' hsome
    rw [hnext] at hsome
    obtain ⟨rfl, rfl⟩ := Prod.mk.inj (Option.some.inj hsome)
    rw [endsWord]
    cases hchar : isWordChar r.code with
    | false => rfl
    | true =>
      simp only [hchar, hword, hequals, hsplits, Bool.not_true, Bool.false_eq_true, if_false, Bool.and_false,
        if_true, Bool.false_or] at h ⊢
      have hnoword (m : Nat) (t : Text) : runFrom rule whole m false t ≠ (n, .name) := by
        intro hend
        have hshape := runFrom_word rule whole m t
        rw [hend] at hshape
        cases hshape
      by_cases hslash : r.code = '\\'.toNat
      · rw [if_pos hslash] at h
        split at h
        · cases (Prod.mk.inj h).2
        · exact absurd h (hnoword _ _)
      · rw [if_neg hslash] at h
        cases hsep : isSeparatorChar r.code && !startsWord rest with
        | true => rfl
        | false =>
          rw [hsep, if_neg Bool.false_ne_true] at h
          cases hname : if n = 0 then isNameStart r.code else isNameChar r.code with
          | true =>
            rw [hname, if_pos rfl] at h
            have hle := (runFrom_le rule whole (n + r.width) true rest).1
            rw [h] at hle
            dsimp only at hle
            omega
          | false =>
            rw [hname, if_neg Bool.false_ne_true] at h
            exact absurd h (hnoword _ _)

theorem not_special {k : Kind} (hk : k = .beforeDot ∨ k = .word) :
    k ∉ punctuationKinds ∧ k ∉ Kind.operators.map Prod.snd ∧ k ∉ Kind.keywords.map Prod.snd := by
  rcases hk with rfl | rfl <;> decide

theorem Classified.run_beforeDot {accept : KindSet} {bound : Option (Text → Bool)} {r : Rune} {s : Text} {n : Nat}
    (h : Classified accept bound r s .beforeDot n) : 0 < n ∧ run (ruleOf accept bound) s = (n, .beforeDot) := by
  obtain ⟨hpunct, hoperator, hkeyword⟩ := not_special (.inl rfl)
  cases h with
  | punctuation h => exact absurd (punctuation?_mem h) hpunct
  | operator h => exact absurd (ofOperator?_mem (operator?_eq_some h).1) hoperator
  | glued _ h =>
    exact absurd (ofOperator?_mem (operator?_eq_some (gluedOperator?_eq_some h).2.2).1) hoperator
  | keyword _ _ h => exact absurd (ofKeyword?_mem h) hkeyword
  | beforeDot hpos h => exact ⟨hpos, h⟩

theorem Classified.run_word {accept : KindSet} {bound : Option (Text → Bool)} {r : Rune} {s : Text} {n : Nat}
    (h : Classified accept bound r s .word n) : run (ruleOf accept bound) s = (n, .word) ∧ accept.has .word = true := by
  obtain ⟨hpunct, hoperator, hkeyword⟩ := not_special (.inr rfl)
  cases h with
  | punctuation h => exact absurd (punctuation?_mem h) hpunct
  | operator h => exact absurd (ofOperator?_mem (operator?_eq_some h).1) hoperator
  | glued _ h =>
    exact absurd (ofOperator?_mem (operator?_eq_some (gluedOperator?_eq_some h).2.2).1) hoperator
  | keyword _ _ h => exact absurd (ofKeyword?_mem h) hkeyword
  | word _ h haccept => exact ⟨h, haccept⟩

/-- A bare word does not end where it starts. -/
theorem Scanned.endsWord_eq_false {src : Text} {pos : Nat} {accept : KindSet} {bound : Option (Text → Bool)}
    {t : Token} (h : Scanned src pos accept bound t) (hkind : t.kind = .word) :
    ∃ r rest, Text.next? (src.drop t.start) = some (r, rest) ∧ endsWord r.code rest = false := by
  cases h with
  | eof => cases hkind
  | @token r rest k n hnext h =>
    refine ⟨r, rest, hnext, ?_⟩
    have hk : k = .word := hkind
    subst hk
    obtain ⟨h, haccept⟩ := h.run_word
    cases hends : endsWord r.code rest with
    | false => rfl
    | true =>
      have hword : (ruleOf accept bound).allowWord = true := haccept
      have hstop := runFrom_endsWord hword (src.drop (skipBlank src pos (accept.has .newline))) 0
        (s := src.drop (skipBlank src pos (accept.has .newline))) (by
          intro r' rest' hnext'
          rw [hnext] at hnext'
          obtain ⟨rfl, rfl⟩ := Prod.mk.inj (Option.some.inj hnext')
          exact hends)
      rw [run, hstop] at h
      cases (Prod.mk.inj h).2

/-! ## Questions that agree -/

/-- A keyword is a keyword for every run that goes over words. -/
theorem run_keyword {rule rule' : RunRule} {s : Text} {n : Nat} {k : Kind} (hword : rule.allowWord = true)
    (hword' : rule'.allowWord = true) (hequals : rule.stopAtEq = false)
    (hbound : ∀ b, rule.bound = some b → ∀ t, b t = true → Bindable t)
    (h : run rule s = (n, .name)) (hk : Kind.ofKeyword? (s.take n) = some k) : run rule' s = (n, .name) := by
  obtain ⟨hfront, hstop⟩ := run_stops h Shape.noConfusion
  have hsplits (c : Nat) : rule.splits (s.take n) c = false := by
    rw [RunRule.splits]
    cases hb : rule.bound with
    | none => rfl
    | some b =>
      cases hbt : b (s.take n) with
      | false => simp [hbt]
      | true =>
        have hnone := (hbound b hb _ hbt).2
        rw [hk] at hnone
        cases hnone
  rw [runFrom_namePrefix rule' hfront]
  exact runFrom_endsWord hword' s n fun r rest hnext => endsWord_of_runFrom hword hequals hsplits hstop hnext

theorem nameToken_plain {accept : KindSet} (s : Text) (n : Nat) (hargName : accept.has .argName = false)
    (hassign : accept.has .assignable = false) :
    nameToken accept s n = ((Kind.ofKeyword? (s.take n)).getD .identifier, n) := by
  rw [nameToken, hargName, hassign]
  cases Kind.ofKeyword? (s.take n) with
  | some k => rfl
  | none => simp

theorem not_boundary_of_eq_false {k : Kind} (hk : (k.isKeyword || punctuationKinds.contains k) = false) :
    ¬ (k.isKeyword = true ∨ k ∈ punctuationKinds) := by
  rw [Bool.or_eq_false_iff, ← Bool.not_eq_true, ← Bool.not_eq_true, List.contains_iff_mem] at hk
  exact fun h => h.elim hk.1 hk.2

/-- Of names only keywords end an operand, and those are answered alike by two questions at one place that
accept words and differ in the targets of assignments only. -/
theorem nameToken_boundary {accept accept' : KindSet} {bound bound' : Option (Text → Bool)} {s : Text} {n : Nat}
    (hsame : ∀ k, k ≠ .assignable → accept'.has k = accept.has k) (hword : accept.has .word = true)
    (hargName : accept.has .argName = false) (hassign : accept.has .assignable = false)
    (hbound : ∀ b, bound = some b → ∀ t, b t = true → Bindable t) (hrun : run (ruleOf accept bound) s = (n, .name))
    (hkind : (nameToken accept s n).1.isKeyword = true ∨ (nameToken accept s n).1 ∈ punctuationKinds) :
    run (ruleOf accept' bound') s = (n, .name) ∧ (nameToken accept' s n).1 = (nameToken accept s n).1 := by
  rw [nameToken_plain s n hargName hassign] at hkind ⊢
  cases hk : Kind.ofKeyword? (s.take n) with
  | none =>
    rw [hk] at hkind
    exact absurd hkind (not_boundary_of_eq_false (k := .identifier) (by decide))
  | some k =>
    refine ⟨run_keyword hword ?_ ?_ ?_ hrun hk, by rw [nameToken, hk]; rfl⟩
    · rw [ruleOf, hsame .word Kind.noConfusion, hword]
    · rw [ruleOf, hargName, hassign]
      rfl
    · intro b hb
      rw [ruleOf] at hb
      dsimp only at hb
      split at hb
      · exact hbound b hb
      · cases hb

/-- The kinds that end an operand are answered alike by two questions at one place that accept words and
differ in the targets of assignments only. -/
theorem classify_boundary {accept accept' : KindSet} {bound bound' : Option (Text → Bool)} {r : Rune} {s : Text}
    (hsame : ∀ k, k ≠ .assignable → accept'.has k = accept.has k) (hword : accept.has .word = true)
    (hargName : accept.has .argName = false) (hassign : accept.has .assignable = false)
    (hbound : ∀ b, bound = some b → ∀ t, b t = true → Bindable t)
    (hkind : (classify accept bound r s).1.isKeyword = true ∨ (classify accept bound r s).1 ∈ punctuationKinds) :
    (classify accept' bound' r s).1 = (classify accept bound r s).1 := by
  have hpunct : punctuation? accept' r.code = punctuation? accept r.code := by
    rw [punctuation?, punctuation?, hsame .dot Kind.noConfusion]
  have hoperator (t : Text) : operator? accept' t = operator? accept t := by
    rw [operator?, operator?]
    cases hk : Kind.ofOperator? t with
    | none => rfl
    | some k =>
      have hothers : ∀ k ∈ Kind.operators.map Prod.snd, k ≠ .assignable := by decide
      rw [Option.filter_some, Option.filter_some, hsame k (hothers k (ofOperator?_mem hk))]
  revert hkind
  rw [classify, classify, hpunct, hsame .regex Kind.noConfusion, hsame .number Kind.noConfusion,
    hsame .word Kind.noConfusion]
  dsimp only
  rw [hoperator]
  cases hp : punctuation? accept r.code with
  | some k => exact fun _ => rfl
  | none =>
    dsimp only
    cases (if accept.has .regex && List.isPrefixOf (Text.ofString "//") s then regexLength? s else none) with
    | some n => exact fun _ => rfl
    | none =>
      dsimp only
      cases operator? accept (s.take (run .whole s).1) with
      | some k => exact fun _ => rfl
      | none =>
        dsimp only
        rw [if_pos hword, if_pos hword, if_pos hword]
        cases isNumber (s.take (run .whole s).1) && accept.has .number with
        | true => exact fun _ => rfl
        | false =>
          simp only [Bool.false_eq_true, if_false]
          obtain ⟨n, shape, hrun⟩ : ∃ n shape, run (ruleOf accept bound) s = (n, shape) := ⟨_, _, rfl⟩
          have hrule := hrun
          rw [ruleOf] at hrule
          rw [hrule]
          intro hkind
          -- Nothing but a name can be a keyword.
          cases n with
          | zero => exact absurd hkind (not_boundary_of_eq_false (k := .illegal) (by decide))
          | succ n =>
            cases shape with
            | beforeDot => exact absurd hkind (not_boundary_of_eq_false (k := .beforeDot) (by decide))
            | word => exact absurd hkind (not_boundary_of_eq_false (k := .word) (by decide))
            | name =>
              obtain ⟨hwhole, hname⟩ : run (ruleOf accept' bound') s = (n + 1, .name) ∧ _ :=
                nameToken_boundary hsame hword hargName hassign hbound hrun hkind
              rw [ruleOf, hsame .word Kind.noConfusion] at hwhole
              rw [hwhole]
              exact hname

end Bareword.Token
