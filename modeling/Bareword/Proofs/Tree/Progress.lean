import Bareword.Proofs.Tree.Reads
import Mathlib.Data.List.TakeWhile

/-! # Progress

Productions read forward, stay within the source and leave the counters as they found them; those that
loops rely on read something.

* `Snapshot.Advances`: no way back, no way out of the source.
* `Production.Consumes`: what a production reads at least.
* `Reads.advances`, `Reads.consumes`: what every production does.
-/

namespace Bareword.Tree.Grammar
set_option autoImplicit false
open Token (KindSet)
open Parsing

/-! ## Skipped statements -/

theorem length_trimEnd_le (p : UInt8 → Bool) (t : Text) : (Text.trimEnd p t).length ≤ t.length := by
  have hle := (List.dropWhile_sublist p (l := t.reverse)).length_le
  rw [List.length_reverse] at hle
  rw [Text.trimEnd, List.length_reverse]
  exact hle

theorem trimEnd_ne_nil {p : UInt8 → Bool} {b : UInt8} {t : Text} (hb : p b = false) (hmem : b ∈ t) :
    Text.trimEnd p t ≠ [] := by
  intro hnil
  rw [Text.trimEnd, List.reverse_eq_nil_iff, List.dropWhile_eq_nil_iff] at hnil
  have hp := hnil b (List.mem_reverse.mpr hmem)
  rw [hb] at hp
  cases hp

/-- How far `skipStatement` goes before the blanks at the end are left out. -/
theorem skipRange_eq (src : Text) (pos parens : Nat) :
    ∃ n, skipRange src pos parens = (Token.skipBlank src pos (parens == 0),
        Token.skipBlank src pos (parens == 0) +
          (Text.trimEnd isBlank ((src.drop (Token.skipBlank src pos (parens == 0))).take n)).length) ∧
      (Token.skipBlank src pos (parens == 0) < src.length → 0 < n) := by
  rw [skipRange]
  refine ⟨_, rfl, fun hlt => ?_⟩
  cases hnext : Text.next? (src.drop (Token.skipBlank src pos (parens == 0))) with
  | none =>
    have hle := List.drop_eq_nil_iff.mp (Text.next?_eq_none.mp hnext)
    omega
  | some found =>
    have hwidth := (Text.next?_eq_some hnext).2.1
    cases statementLength (0 < parens) 0 (src.drop (Token.skipBlank src pos (parens == 0))) with
    | zero => exact hwidth
    | succ n => exact Nat.succ_pos n

theorem skipRange_fst (src : Text) (pos parens : Nat) :
    (skipRange src pos parens).1 = Token.skipBlank src pos (parens == 0) := rfl

theorem skipRange_le {src : Text} {pos : Nat} (parens : Nat) (hpos : pos ≤ src.length) :
    (skipRange src pos parens).1 ≤ (skipRange src pos parens).2 ∧ (skipRange src pos parens).2 ≤ src.length := by
  obtain ⟨n, heq, -⟩ := skipRange_eq src pos parens
  have hstart := Token.skipBlank_le hpos (parens == 0)
  have htrim := length_trimEnd_le isBlank ((src.drop (Token.skipBlank src pos (parens == 0))).take n)
  rw [List.length_take, List.length_drop] at htrim
  rw [heq]
  dsimp only
  omega

/-- What is skipped is not empty unless the source is over. -/
theorem skipRange_lt {src : Text} {pos parens : Nat}
    (hlt : Token.skipBlank src pos (parens == 0) < src.length) :
    (skipRange src pos parens).1 < (skipRange src pos parens).2 := by
  obtain ⟨n, heq, hn⟩ := skipRange_eq src pos parens
  obtain ⟨b, hb⟩ : ∃ b, src[Token.skipBlank src pos (parens == 0)]? = some b := ⟨_, List.getElem?_eq_getElem hlt⟩
  have hblank : isBlank b = false := by
    have hat : (src.drop pos)[Token.blankLength (parens == 0) (src.drop pos)]? = some b := by
      rw [List.getElem?_drop]
      exact hb
    have hnot := Token.not_blank_at_blankLength hat
    simp only [isBlank, Bool.or_eq_false_iff, beq_eq_false_iff_ne]
    exact ⟨⟨fun h => hnot (.inl h), fun h => hnot (.inr (.inl h))⟩, fun h => hnot (.inr (.inr (.inl h)))⟩
  have hmem : b ∈ (src.drop (Token.skipBlank src pos (parens == 0))).take n := by
    refine List.mem_of_getElem? (i := 0) ?_
    rw [List.getElem?_take_of_lt (hn hlt), List.getElem?_drop]
    exact hb
  have hpos := List.length_pos_iff.mpr (trimEnd_ne_nil hblank hmem)
  rw [heq]
  dsimp only
  omega

/-! ## Looks -/

theorem tok_ne {tok : Token} {k k' : Token.Kind} (hk : tok.kind = k) (hne : k ≠ k') : tok.kind ≠ k' := hk ▸ hne

section
variable {setup : Setup} {exact : Prop} {s : Snapshot} {accept : KindSet} {tok : Token}

theorem Snapshot.has_accepted (s : Snapshot) (accept : KindSet) {k : Token.Kind} (hk : k ≠ .newline) :
    (s.accepted accept).has k = accept.has k := by
  rw [accepted]
  split
  · have hline : (KindSet.of [.newline]).has k = false := by
      cases k <;> first | rfl | exact absurd rfl hk
    rw [KindSet.eraseAll, KindSet.has_diff, hline, Bool.not_false, Bool.and_true]
  · rfl

theorem Looks.scanned (h : Looks setup exact s accept tok) :
    ∃ bound, (∀ t, bound t = true → Token.Bindable t) ∧
      Token.Scanned setup.src s.pos (s.accepted accept) (some bound) tok := by
  obtain ⟨bound, hbound, -, rfl⟩ := h
  exact ⟨bound, hbound, Token.scanned _ _ _ _⟩

theorem Looks.stands (h : Looks setup exact s accept tok) (hk : tok.kind ≠ .eof) :
    Token.Stands setup.src s.pos ((s.accepted accept).has .newline) tok := by
  obtain ⟨bound, -, hscanned⟩ := h.scanned
  exact hscanned.stands hk

theorem Looks.start_le (h : Looks setup exact s accept tok) (hk : tok.kind ≠ .eof) : s.pos ≤ tok.start := by
  rw [(h.stands hk).start_eq]
  exact Token.le_skipBlank _ _ _

theorem Looks.lt_stop (h : Looks setup exact s accept tok) (hk : tok.kind ≠ .eof) : s.pos < tok.stop :=
  Nat.lt_of_le_of_lt (h.start_le hk) (h.stands hk).lt

theorem Looks.stop_le (h : Looks setup exact s accept tok) (hk : tok.kind ≠ .eof) : tok.stop ≤ setup.src.length :=
  (h.stands hk).le

/-- Where a token is seen, the source goes on. -/
theorem Looks.skipBlank_lt (h : Looks setup exact s accept tok) (hk : tok.kind ≠ .eof) :
    Token.skipBlank setup.src s.pos (s.parens == 0) < setup.src.length := by
  have hstands := h.stands hk
  have hlt := Nat.lt_of_lt_of_le hstands.lt hstands.le
  rw [hstands.start_eq] at hlt
  have hmono := Token.skipBlank_mono setup.src s.pos
  cases hparens : s.parens with
  | zero =>
    cases hkeep : (s.accepted accept).has .newline with
    | true =>
      rw [hkeep] at hlt
      exact hlt
    | false =>
      rw [hkeep] at hlt
      exact Nat.lt_of_le_of_lt hmono hlt
  | succ n =>
    have hkeep : (s.accepted accept).has .newline = false := by
      have hline : (KindSet.of [.newline]).has .newline = true := by decide
      rw [Snapshot.accepted, hparens, if_pos (Nat.succ_pos n), KindSet.eraseAll, KindSet.has_diff, hline,
        Bool.not_true, Bool.and_false]
    rw [hkeep] at hlt
    exact hlt

theorem Looks.skipBlank_lt_of_not_newline (h : Looks setup exact s accept tok) (hk : tok.kind ≠ .eof)
    (hline : tok.kind ≠ .newline) : Token.skipBlank setup.src s.pos false < setup.src.length := by
  have hstands := h.stands hk
  have hlt := Nat.lt_of_lt_of_le hstands.lt hstands.le
  obtain ⟨bound, -, -, rfl⟩ := h
  rwa [Token.scan_start hk hline] at hlt

theorem Held.looks (h : Held setup exact s tok) : ∃ accept, Looks setup exact s accept tok := by
  obtain ⟨accept, -, hlook⟩ := h
  exact ⟨accept, hlook⟩

theorem Snapshot.accepted_newline (s : Snapshot) {accept : KindSet} (h : accept.has .newline = false) :
    (s.accepted accept).has .newline = false := by
  rw [accepted]
  split
  · rw [KindSet.eraseAll, KindSet.has_diff, h, Bool.false_and]
  · exact h

theorem boundary_cases {k : Token.Kind} (h : isBoundary k = true) :
    k = .eof ∨ k = .pipe ∨ k.isKeyword = true ∨ k ∈ Token.punctuationKinds := by
  revert h
  cases k <;> decide

theorem not_stmtStart_of_isBoundary {k : Token.Kind} (h : isBoundary k = true) : stmtStart.has k = false := by
  cases k <;> first | rfl | cases h

/-- What ends an operand is no start of a statement. -/
theorem Looks.boundary {tok' : Token} (h : Looks setup exact s exprStart tok)
    (h' : Looks setup exact s stmtStart tok') (hk : isBoundary tok.kind = true) : stmtStart.has tok'.kind = false := by
  obtain ⟨bound, hbound, -, rfl⟩ := h
  obtain ⟨bound', -, -, rfl⟩ := h'
  rw [Token.scan, s.accepted_newline (by decide)] at hk ⊢
  dsimp only at hk ⊢
  cases hnext : Text.next? (setup.src.drop (Token.skipBlank setup.src s.pos false)) with
  | none => exact not_stmtStart_of_isBoundary (k := .eof) rfl
  | some found =>
    rw [hnext] at hk
    obtain ⟨r, rest⟩ := found
    dsimp only [Token.cut] at hk ⊢
    have hclassified := Token.classified (s.accepted exprStart) (some bound) r
      (setup.src.drop (Token.skipBlank setup.src s.pos false))
    have hsame : ∀ k, k ≠ .assignable → (s.accepted stmtStart).has k = (s.accepted exprStart).has k := by
      intro k hassign
      by_cases hline : k = .newline
      · rw [hline, s.accepted_newline (by decide), s.accepted_newline (by decide)]
      · rw [s.has_accepted _ hline, s.has_accepted _ hline]
        cases k <;> first | rfl | exact absurd rfl hassign
    have hagree : (Token.classify (s.accepted stmtStart) (some bound') r
        (setup.src.drop (Token.skipBlank setup.src s.pos false))).1 = (Token.classify (s.accepted exprStart)
          (some bound) r (setup.src.drop (Token.skipBlank setup.src s.pos false))).1 := by
      refine Token.classify_boundary hsame ?_ ?_ ?_ ?_ ?_
      · rw [s.has_accepted _ Token.Kind.noConfusion]
        decide
      · rw [s.has_accepted _ Token.Kind.noConfusion]
        decide
      · rw [s.has_accepted _ Token.Kind.noConfusion]
        decide
      · intro b hb
        cases hb
        exact hbound
      · generalize (Token.classify _ _ _ _).1 = k at hk hclassified ⊢
        have hne := hclassified.ne_eof
        have hpipe : k ≠ .pipe := by
          rintro rfl
          have haccepts := hclassified.accepts (by decide)
          rw [s.has_accepted _ Token.Kind.noConfusion] at haccepts
          exact absurd haccepts (by decide)
        exact ((boundary_cases hk).resolve_left hne).resolve_left hpipe
    rw [hagree]
    exact not_stmtStart_of_isBoundary hk

end

/-! ## Progress -/

/-- Nothing is read again, and the counters are as they were. -/
structure Snapshot.Advances (src : Text) (s t : Snapshot) : Prop where
  le : s.pos ≤ t.pos
  bound : s.pos ≤ src.length → t.pos ≤ src.length
  parens_eq : t.parens = s.parens
  depth_eq : t.depth = s.depth

namespace Snapshot.Advances
variable {src : Text} {s t u : Snapshot}

theorem refl (src : Text) (s : Snapshot) : s.Advances src s := ⟨Nat.le_refl _, id, rfl, rfl⟩

theorem trans (h : s.Advances src t) (h' : t.Advances src u) : s.Advances src u :=
  ⟨Nat.le_trans h.le h'.le, fun hs => h'.bound (h.bound hs), h'.parens_eq.trans h.parens_eq,
    h'.depth_eq.trans h.depth_eq⟩

theorem moveTo {pos : Nat} (hle : s.pos ≤ pos) (hbound : pos ≤ src.length) : s.Advances src (s.moveTo pos) :=
  ⟨hle, fun _ => hbound, rfl, rfl⟩

theorem shift {tok : Token} (hle : s.pos ≤ tok.stop) (hbound : tok.stop ≤ src.length) :
    s.Advances src (s.shift tok) :=
  ⟨hle, fun _ => hbound, rfl, rfl⟩

theorem advance {tok : Token} (hle : s.pos ≤ tok.stop) (hbound : tok.stop ≤ src.length) :
    s.Advances src (s.advance tok) :=
  ⟨hle, fun _ => hbound, rfl, rfl⟩

/-- Faults, names and looks do not count. -/
theorem same (hpos : t.pos = s.pos) (hparens : t.parens = s.parens) (hdepth : t.depth = s.depth) :
    s.Advances src t :=
  ⟨Nat.le_of_eq hpos.symm, fun h => hpos ▸ h, hparens, hdepth⟩

theorem withParens {parens : Nat} (h : (s.withParens parens).Advances src t) :
    s.Advances src (t.withParens s.parens) :=
  ⟨h.le, h.bound, rfl, h.depth_eq⟩

theorem leave (h : s.enter.Advances src t) : s.Advances src t.leave := by
  refine ⟨h.le, h.bound, ?_, h.depth_eq⟩
  have hparens : t.parens = s.parens + 1 := h.parens_eq
  change t.parens - 1 = s.parens
  omega

theorem withDepth (h : s.deepen.Advances src t) : s.Advances src (t.withDepth s.depth) :=
  ⟨h.le, h.bound, h.parens_eq, rfl⟩

end Snapshot.Advances

section
variable {setup : Setup} {exact : Prop} {s t : Snapshot} {tok : Token}

theorem Looks.advances {accept : KindSet} (h : Looks setup exact s accept tok) (hk : tok.kind ≠ .eof) :
    s.Advances setup.src (s.shift tok) :=
  .shift (Nat.le_of_lt (h.lt_stop hk)) (h.stop_le hk)

theorem Snapshot.advances_complain (s : Snapshot) (c : Complaint) (span : Span) :
    s.Advances setup.src (s.complain setup c span) :=
  .same rfl rfl rfl

theorem Snapshot.advances_skip (s : Snapshot) (c : Complaint) : s.Advances setup.src (s.skip setup c) := by
  have hle : s.pos ≤ (skipRange setup.src s.pos s.parens).2 := by
    obtain ⟨n, heq, -⟩ := skipRange_eq setup.src s.pos s.parens
    have hstart := Token.le_skipBlank setup.src s.pos (s.parens == 0)
    rw [heq]
    dsimp only
    omega
  exact ⟨hle, fun hs => (skipRange_le s.parens hs).2, rfl, rfl⟩

theorem Snapshot.lt_skip (s : Snapshot) (c : Complaint)
    (hlt : Token.skipBlank setup.src s.pos (s.parens == 0) < setup.src.length) : s.pos < (s.skip setup c).pos :=
  Nat.lt_of_le_of_lt (Token.le_skipBlank setup.src s.pos (s.parens == 0)) (skipRange_lt hlt)

theorem Expects.advances {accept : KindSet} {k : Token.Kind} {leaf : Kind} {c : Complaint} {node : Node}
    (hk : k ≠ .eof) (h : Expects setup exact s accept k leaf c node t) : s.Advances setup.src t := by
  cases h with
  | found hlook hkind => exact hlook.advances (hkind.symm ▸ hk)
  | absent => exact s.advances_complain _ _

theorem EndStatement.advances {stop : KindSet} {junk : Option Node} (h : EndStatement setup exact s stop junk t) :
    s.Advances setup.src t := by
  cases h with
  | clean => exact .refl _ _
  | junk => exact s.advances_skip _

theorem CloseBody.advances {node whole : Node} {block : Bool} (h : CloseBody setup exact s node block whole t) :
    s.Advances setup.src t := by
  cases h with
  | closed hlook hk => exact hlook.advances (tok_ne hk Token.Kind.noConfusion)
  | missing => exact s.advances_complain _ _
  | without => exact .refl _ _

theorem Looks.pastDot {dot : Token} (h : Looks setup exact s (.of [.dot]) dot) :
    s.Advances setup.src (s.pastDot dot) := by
  rw [Snapshot.pastDot]
  split
  · rename_i hk
    exact h.advances (tok_ne hk Token.Kind.noConfusion)
  · exact .refl _ _

theorem DotGet.advances {node : Node} (hheld : Held setup exact s tok) (hk : tok.kind ≠ .eof)
    (h : DotGet setup exact s tok node t) : s.Advances setup.src t ∧ s.pos < t.pos := by
  obtain ⟨accept, hlook⟩ := hheld.looks
  have hfirst := hlook.advances hk
  have hlt := hlook.lt_stop hk
  cases h with
  | found hdot hprop hkind =>
    have hshift := hdot.pastDot.trans (hprop.advances (tok_ne hkind Token.Kind.noConfusion))
    exact ⟨hfirst.trans hshift, Nat.lt_of_lt_of_le hlt hshift.le⟩
  | absent hdot hprop =>
    have hshift := hdot.pastDot
    exact ⟨(hfirst.trans hshift).trans (Snapshot.advances_complain _ _ _), Nat.lt_of_lt_of_le hlt hshift.le⟩

theorem Params.advances {node list : Node} (h : Params setup exact s node list t) : s.Advances setup.src t := by
  induction h with
  | name hlook hk _ ih => exact (hlook.advances (tok_ne hk Token.Kind.noConfusion)).trans ih
  | @bad s t node list tok hlook hk _ ih =>
    have hne : tok.kind ≠ .eof := tok_ne hk Token.Kind.noConfusion
    have hmove : s.Advances setup.src ((s.complain setup (.badParameter tok) tok.span).moveTo tok.stop) :=
      ⟨Nat.le_of_lt (hlook.lt_stop hne), fun _ => hlook.stop_le hne, rfl, rfl⟩
    exact hmove.trans ih
  | done => exact .refl _ _

theorem CloseParen.advances {node whole : Node} (h : CloseParen setup exact s node whole t) :
    s.Advances setup.src t := by
  cases h with
  | closed hlook hk => exact hlook.advances (tok_ne hk Token.Kind.noConfusion)
  | missing => exact s.advances_complain _ _

theorem Junk.advances {node whole : Node} (h : Junk setup exact s node whole t) : s.Advances setup.src t := by
  induction h with
  | done => exact .refl _ _
  | more _ _ _ ih => exact (Snapshot.advances_skip _ _).trans ih

end

/-! ## What productions consume -/

/-- What a production reads at least. -/
def Production.Consumes (setup : Setup) (exact : Prop) : Production → Snapshot → Snapshot → Prop
  | .statement, s, t => Token.skipBlank setup.src s.pos false < setup.src.length → s.pos < t.pos
  | .assign _, s, t | .functionDef _, s, t | .ifExpr _, s, t | .stages _ _, s, t | .piece _, s, t => s.pos < t.pos
  | .expression, s, t | .binary _ _, s, t =>
    s.pos < t.pos ∨ ∃ tok, Looks setup exact s exprStart tok ∧ isBoundary tok.kind = true
  | .operand tok _, s, t | .operandBody tok _, s, t => s.pos < t.pos ∨ isBoundary tok.kind = true
  | .args _ tok, s, t | .arg tok, s, t => argStart.has tok.kind = true → s.pos < t.pos
  | .wordPieces _, s, t => (Token.wordPiece setup.src s.pos).kind ≠ .fragmentEnd → s.pos < t.pos
  | _, _, _ => True

variable {setup : Setup} {exact : Prop}

theorem not_argStart_of_isBoundary {k : Token.Kind} (h : isBoundary k = true) : argStart.has k = false := by
  cases k <;> first | rfl | cases h

theorem skipBlank_le_false (src : Text) (pos : Nat) (keep : Bool) :
    Token.skipBlank src pos keep ≤ Token.skipBlank src pos false := by
  cases keep with
  | true => exact Token.skipBlank_mono src pos
  | false => exact Nat.le_refl _

theorem literalKind?_ne_eof {k : Token.Kind} {kind : Kind} (h : literalKind? k = some kind) : k ≠ .eof := by
  rintro rfl
  cases h

/-- A piece of a string stands where the string is read. -/
theorem stringPiece_stop {src : Text} {pos quote : Nat} (hk : (Token.stringPiece src pos quote).kind ≠ .eof) :
    pos < (Token.stringPiece src pos quote).stop ∧ (Token.stringPiece src pos quote).stop ≤ src.length := by
  rcases Token.stringPiece_cases src pos quote with ⟨h, -⟩ | ⟨width, h, hpos, hle⟩ | h
  · rw [h] at hk
    exact absurd rfl hk
  · rw [h]
    exact ⟨Nat.lt_add_of_pos_right hpos, hle⟩
  · exact ⟨h.lt, h.le⟩

theorem wordPiece_stop {src : Text} {pos : Nat} (hk : (Token.wordPiece src pos).kind ≠ .fragmentEnd) :
    pos < (Token.wordPiece src pos).stop ∧ (Token.wordPiece src pos).stop ≤ src.length := by
  rcases Token.wordPiece_cases src pos with h | h
  · rw [h] at hk
    exact absurd rfl hk
  · exact ⟨h.lt, h.le⟩

/-- A bare word has a first piece. -/
theorem Looks.wordPiece {s : Snapshot} {accept : KindSet} {tok : Token} (h : Looks setup exact s accept tok)
    (hk : tok.kind = .word) : (Token.wordPiece setup.src tok.start).kind ≠ .fragmentEnd := by
  obtain ⟨bound, -, hscanned⟩ := h.scanned
  obtain ⟨r, rest, hnext, hends⟩ := hscanned.endsWord_eq_false hk
  have hkind := (Token.wordPiece_piece hnext hends).kind_mem
  intro hend
  rw [hend] at hkind
  exact absurd hkind (by decide)

theorem Reads.progress {p : Production} {s t : Snapshot} {a : p.Answer} (h : Reads setup exact p s a t) :
    s.Advances setup.src t ∧ p.Consumes setup exact s t := by
  induction h with
  | halted | restClosed | restOpen | noOperator | glued | noArgs => exact ⟨.refl _ _, trivial⟩
  | off | noMore => exact ⟨.same rfl rfl rfl, trivial⟩
  | @separator s t stop tok stmts _ _ hlook _ hk _ ih =>
    have hne : tok.kind ≠ .eof := by rcases hk with h | h <;> rw [h] <;> exact Token.Kind.noConfusion
    have hcount : s.Advances setup.src s.count := .same rfl rfl rfl
    exact ⟨hcount.trans ((hlook.advances hne).trans ih.1), trivial⟩
  | @next s s₁ s₂ t stop tok stmt junk stmts _ _ _ _ _ _ hjunk _ ihstmt ihrest =>
    have hcount : s.Advances setup.src s.count := .same rfl rfl rfl
    exact ⟨hcount.trans (ihstmt.1.trans (hjunk.advances.trans ihrest.1)), trivial⟩
  | assignment _ _ _ ih => exact ⟨ih.1, fun _ => ih.2⟩
  | @noStatement s tok =>
    refine ⟨s.advances_skip _, fun hlt => s.lt_skip _ ?_⟩
    exact Nat.lt_of_le_of_lt (skipBlank_le_false _ _ _) hlt
  | evaluate hlook _ hk _ ih =>
    refine ⟨ih.1, fun _ => ih.2.resolve_right ?_⟩
    rintro ⟨tok', hlook', hbound⟩
    rw [hlook'.boundary hlook hbound] at hk
    cases hk
  | @assign s s₁ t tok op value hheld hk hop _ ih =>
    obtain ⟨accept, hlook⟩ := hheld.looks
    have hne : tok.kind ≠ .eof := tok_ne hk Token.Kind.noConfusion
    have hrest := (hop.advances Token.Kind.noConfusion).trans ih.1
    have hreduce : t.Advances setup.src (t.reduce .assign) := .same rfl rfl rfl
    exact ⟨((hlook.advances hne).trans hrest).trans hreduce, Nat.lt_of_lt_of_le (hlook.lt_stop hne) hrest.le⟩
  | block _ _ _ ih => exact ⟨.withParens ih.1, trivial⟩
  | noBody => exact ⟨.withParens (.refl _ _), trivial⟩
  | inlined _ _ _ _ ih => exact ⟨.withParens ih.1, trivial⟩
  | several _ _ ihfirst ihrest => exact ⟨ihfirst.1.trans ihrest.1, trivial⟩
  | single _ _ ihfirst _ => exact ⟨ihfirst.1.trans (.same rfl rfl rfl), trivial⟩
  | restClosedNext hlook _ hk | restOpenNext hlook _ hk =>
    exact ⟨hlook.advances (tok_ne hk Token.Kind.noConfusion), trivial⟩
  | restMore hlook _ hk _ _ _ _ _ ihstmt ihrest =>
    have hshift := hlook.advances (tok_ne hk Token.Kind.noConfusion)
    exact ⟨hshift.trans (ihstmt.1.trans ihrest.1), trivial⟩
  | @functionDef s s₁ s₂ s₃ t tok list c node stmts block hheld hk hparams hcolon _ hclose ih =>
    obtain ⟨accept, hlook⟩ := hheld.looks
    have hne : tok.kind ≠ .eof := tok_ne hk Token.Kind.noConfusion
    have hreduce : s₁.Advances setup.src (s₁.reduce .params) := .same rfl rfl rfl
    have hrest := (hparams.advances.trans hreduce).trans
      ((hcolon.advances Token.Kind.noConfusion).trans (ih.1.trans hclose.advances))
    have hleave : t.Advances setup.src (t.reduce .functionDef) := .same rfl rfl rfl
    exact ⟨((hlook.advances hne).trans hrest).trans hleave, Nat.lt_of_lt_of_le (hlook.lt_stop hne) hrest.le⟩
  | @ifExpr s s₁ s₂ s₃ t tok condition c node stmts block hheld hk _ hcolon _ _ ihcondition ihbody ihbranches =>
    obtain ⟨accept, hlook⟩ := hheld.looks
    have hne : tok.kind ≠ .eof := tok_ne hk Token.Kind.noConfusion
    have hrest := ihcondition.1.trans
      ((hcolon.advances Token.Kind.noConfusion).trans (ihbody.1.trans ihbranches.1))
    exact ⟨(hlook.advances hne).trans hrest, Nat.lt_of_lt_of_le (hlook.lt_stop hne) hrest.le⟩
  | elsif hlook hk _ hcolon _ _ ihcondition ihbody ihbranches =>
    have hshift := hlook.advances (tok_ne hk Token.Kind.noConfusion)
    have hrest := ihcondition.1.trans
      ((hcolon.advances Token.Kind.noConfusion).trans (ihbody.1.trans ihbranches.1))
    exact ⟨hshift.trans hrest, trivial⟩
  | otherwise hlook hk hcolon _ _ ihbody ihbranches =>
    have hshift := hlook.advances (tok_ne hk Token.Kind.noConfusion)
    have hrest := (hcolon.advances Token.Kind.noConfusion).trans (ihbody.1.trans ihbranches.1)
    exact ⟨hshift.trans hrest, trivial⟩
  | endIf _ _ _ hclose => exact ⟨hclose.advances, trivial⟩
  | pipe _ _ _ _ ihleft ihstages =>
    exact ⟨ihleft.1.trans ihstages.1, .inl (Nat.lt_of_le_of_lt ihleft.1.le ihstages.2)⟩
  | alone _ _ _ ih => exact ih
  | @stage s s₁ t tok next node value whole hheld hkind _ _ _ _ ihvalue ihrest =>
    obtain ⟨accept, hlook⟩ := hheld.looks
    have hne : tok.kind ≠ .eof := tok_ne hkind Token.Kind.noConfusion
    have hrest := ihvalue.1.trans ihrest.1
    exact ⟨(hlook.advances hne).trans hrest, Nat.lt_of_lt_of_le (hlook.lt_stop hne) hrest.le⟩
  | @lastStage s t tok next node value hheld hkind _ _ _ ih =>
    obtain ⟨accept, hlook⟩ := hheld.looks
    have hne : tok.kind ≠ .eof := tok_ne hkind Token.Kind.noConfusion
    exact ⟨(hlook.advances hne).trans ih.1, Nat.lt_of_lt_of_le (hlook.lt_stop hne) ih.1.le⟩
  | operation hlook _ _ ihleft ihops | lone hlook _ _ _ ihleft ihops | justOperand hlook _ _ _ ihleft ihops =>
    refine ⟨ihleft.1.trans ihops.1, ?_⟩
    rcases ihleft.2 with hlt | hbound
    · exact .inl (Nat.lt_of_lt_of_le hlt ihops.1.le)
    · exact .inr ⟨_, hlook, hbound⟩
  | @operator s s₁ t tok minPrec left right more hlook hprec _ _ ihright ihmore =>
    have hne : tok.kind ≠ .eof := by
      intro heof
      rw [heof] at hprec
      exact hprec (.inl rfl)
    exact ⟨(hlook.advances hne).trans (ihright.1.trans ihmore.1), trivial⟩
  | @tooDeep s tok callable hheld _ =>
    obtain ⟨accept, hlook⟩ := hheld.looks
    refine ⟨s.advances_skip _, ?_⟩
    by_cases heof : tok.kind = .eof
    · exact .inr (by rw [heof]; rfl)
    · exact .inl (s.lt_skip _ (hlook.skipBlank_lt heof))
  | operand _ _ _ ih => exact ⟨.withDepth ih.1, ih.2⟩
  | literal hheld hk =>
    obtain ⟨accept, hlook⟩ := hheld.looks
    have hne := literalKind?_ne_eof hk
    exact ⟨hlook.advances hne, .inl (hlook.lt_stop hne)⟩
  | string hheld hk _ ih | callee hheld hk _ ih | group hheld hk _ ih =>
    obtain ⟨accept, hlook⟩ := hheld.looks
    have hne : _ ≠ Token.Kind.eof := tok_ne hk Token.Kind.noConfusion
    exact ⟨(hlook.advances hne).trans ih.1, .inl (Nat.lt_of_lt_of_le (hlook.lt_stop hne) ih.1.le)⟩
  | @word s t tok callable node hheld hk _ ih =>
    obtain ⟨accept, hlook⟩ := hheld.looks
    have hne : tok.kind ≠ .eof := tok_ne hk Token.Kind.noConfusion
    have hstart := hlook.start_le hne
    have hmove : s.Advances setup.src (s.moveTo tok.start) :=
      .moveTo hstart (Nat.le_of_lt (Nat.lt_of_lt_of_le (hlook.stands hne).lt (hlook.stop_le hne)))
    exact ⟨hmove.trans ih.1, .inl (Nat.lt_of_le_of_lt hstart (ih.2 (hlook.wordPiece hk)))⟩
  | name hheld hk =>
    obtain ⟨accept, hlook⟩ := hheld.looks
    have hne : _ ≠ Token.Kind.eof := tok_ne hk Token.Kind.noConfusion
    exact ⟨hlook.advances hne, .inl (hlook.lt_stop hne)⟩
  | dotGet hheld hk h =>
    have hprogress := h.advances hheld (tok_ne hk Token.Kind.noConfusion)
    exact ⟨hprogress.1, .inl hprogress.2⟩
  | function _ _ ih | conditional _ _ ih => exact ⟨ih.1, .inl ih.2⟩
  | noOperand _ hk => exact ⟨.same rfl rfl rfl, .inr hk⟩
  | @badOperand s tok callable hheld _ hk =>
    obtain ⟨accept, hlook⟩ := hheld.looks
    have hne : tok.kind ≠ .eof := by
      intro heof
      rw [heof] at hk
      cases hk
    have hmove : s.Advances setup.src (s.moveTo tok.stop) :=
      .moveTo (Nat.le_of_lt (hlook.lt_stop hne)) (hlook.stop_le hne)
    exact ⟨hmove.trans (.same rfl rfl rfl), .inl (hlook.lt_stop hne)⟩
  | withArgs _ _ _ _ ih => exact ⟨ih.1, trivial⟩
  | moreArgs _ _ _ _ iharg ihrest =>
    exact ⟨iharg.1.trans ihrest.1, fun hk => Nat.lt_of_lt_of_le (iharg.2 hk) ihrest.1.le⟩
  | lastArg _ _ _ ih => exact ih
  | positional _ _ ih =>
    refine ⟨ih.1, fun hstart => ih.2.resolve_right fun hbound => ?_⟩
    rw [not_argStart_of_isBoundary hbound] at hstart
    cases hstart
  | named hheld hk _ _ _ ih =>
    obtain ⟨accept, hlook⟩ := hheld.looks
    have hne : _ ≠ Token.Kind.eof := tok_ne hk Token.Kind.noConfusion
    exact ⟨(hlook.advances hne).trans ih.1, fun _ => Nat.lt_of_lt_of_le (hlook.lt_stop hne) ih.1.le⟩
  | noValue hheld hk =>
    obtain ⟨accept, hlook⟩ := hheld.looks
    have hne : _ ≠ Token.Kind.eof := tok_ne hk Token.Kind.noConfusion
    exact ⟨(hlook.advances hne).trans (.same rfl rfl rfl), fun _ => hlook.lt_stop hne⟩
  | emptyGroup _ _ hclose => exact ⟨.leave hclose.advances, trivial⟩
  | fullGroup _ _ _ hjunk hclose ih => exact ⟨.leave (ih.1.trans (hjunk.advances.trans hclose.advances)), trivial⟩
  | closeQuote hk =>
    have hstop := stringPiece_stop (tok_ne hk Token.Kind.noConfusion)
    exact ⟨.advance (Nat.le_of_lt hstop.1) hstop.2, trivial⟩
  | unterminated hpos => exact ⟨⟨hpos, fun _ => Nat.le_refl _, rfl, rfl⟩, trivial⟩
  | stringText hk _ ih =>
    have hstop := stringPiece_stop (tok_ne hk Token.Kind.noConfusion)
    exact ⟨.trans (.advance (Nat.le_of_lt hstop.1) hstop.2) ih.1, trivial⟩
  | stringPart _ _ ihpiece ih => exact ⟨ihpiece.1.trans ih.1, trivial⟩
  | endWord hk => exact ⟨.refl _ _, fun hend => absurd hk hend⟩
  | wordText hk _ ih =>
    have hstop := wordPiece_stop (tok_ne hk Token.Kind.noConfusion)
    exact ⟨.trans (.advance (Nat.le_of_lt hstop.1) hstop.2) ih.1, fun _ => Nat.lt_of_lt_of_le hstop.1 ih.1.le⟩
  | wordPart _ _ ihpiece ih => exact ⟨ihpiece.1.trans ih.1, fun _ => Nat.lt_of_lt_of_le ihpiece.2 ih.1.le⟩
  | escape hpiece | interpolatedName hpiece => exact ⟨.advance (Nat.le_of_lt hpiece.lt) hpiece.le, hpiece.lt⟩
  | interpolated hpiece _ _ ih =>
    exact ⟨.trans (.advance (Nat.le_of_lt hpiece.lt) hpiece.le) ih.1, Nat.lt_of_lt_of_le hpiece.lt ih.1.le⟩

end Bareword.Tree.Grammar
