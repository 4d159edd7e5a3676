import Bareword.Proofs.Tree.Adequacy
import Bareword.Proofs.Tree.Events

/-! # What a parse accounts for

The tokens that a parse consumes and the error nodes of its tree do not overlap, and together they hold
every byte of the source that is no blank.

* `Span.covers`: the bytes of a span.
* `accounted`: the spans of the tokens and of the error nodes.
* `parse_accounts_for_source`: every byte that is no blank is accounted for once.
-/

namespace Bareword
set_option autoImplicit false

/-- Whether a span holds the byte at an offset. -/
def Span.covers (s : Span) (i : Nat) : Bool := decide (s.start ≤ i ∧ (i : Int) < s.stop)

/-- No byte is held by both spans. -/
def Span.Apart (s o : Span) : Prop := ∀ i, ¬ (s.covers i = true ∧ o.covers i = true)

namespace Span
variable {s o : Span} {i : Nat}

theorem covers_iff : s.covers i = true ↔ s.start ≤ i ∧ (i : Int) < s.stop := decide_eq_true_iff

theorem not_covers_of_empty (h : s.stop = s.start) : s.covers i = false := by
  rw [covers, decide_eq_false_iff_not]
  omega

theorem Apart.symm (h : s.Apart o) : o.Apart s := fun i hi => h i hi.symm

theorem apart_of_le (h : s.stop ≤ o.start) : s.Apart o := by
  rintro i ⟨hs, ho⟩
  rw [covers_iff] at hs ho
  omega

end Span

namespace Tree

/-- The spans of the tokens of a parse and of the error nodes of its tree that are not empty. -/
def Parsed.accounted (p : Parsed) : List Span :=
  p.tokens.map (·.span) ++ (p.tree.errors.map (·.span)).filter fun s => s.stop != s.start

namespace Grammar
open Token (KindSet)
open Parsing

variable {src : Text} {p q : Nat} {es : List Event}

/-! ## Events that fill a range -/

theorem Covers.le (h : Covers src p es q) : p ≤ q := by
  induction h with
  | done => exact Nat.le_refl _
  | blank hgap _ ih => exact Nat.le_trans hgap.le ih
  | event _ hlt _ ih => exact Nat.le_trans (Nat.le_of_lt hlt) ih
  | point _ _ ih => exact ih

/-- What comes later starts later. -/
theorem Covers.start_le (h : Covers src p es q) :
    ∀ e ∈ es, (p : Int) ≤ e.span.start ∨ e.span.stop = e.span.start := by
  induction h with
  | done => exact fun e he => nomatch he
  | blank hgap _ ih =>
    intro e he
    have hle := hgap.le
    have hlater := ih e he
    omega
  | event hspan hlt _ ih =>
    intro e he
    rcases List.mem_cons.mp he with rfl | he
    · rw [hspan]
      exact .inl (Int.le_refl _)
    · have hlater := ih e he
      omega
  | point hspan _ ih =>
    intro e he
    rcases List.mem_cons.mp he with rfl | he
    · exact .inr hspan
    · exact ih e he

/-- Events with extent follow each other. -/
theorem Covers.pairwise (h : Covers src p es q) :
    es.Pairwise fun e f => e.span.stop ≤ f.span.start ∨ e.span.stop = e.span.start ∨ f.span.stop = f.span.start := by
  induction h with
  | done => exact .nil
  | blank _ _ ih => exact ih
  | event hspan _ hrest ih =>
    refine .cons (fun f hf => ?_) ih
    rw [hspan]
    exact (hrest.start_le f hf).imp_right .inr
  | point hspan _ ih => exact .cons (fun f _ => .inr (.inl hspan)) ih

theorem Covers.apart (h : Covers src p es q) : (es.map Event.span).Pairwise Span.Apart := by
  rw [List.pairwise_map]
  refine h.pairwise.imp ?_
  rintro e f (hle | hempty | hempty)
  · exact Span.apart_of_le hle
  · exact fun i hi => absurd hi.1 (Bool.eq_false_iff.mp (Span.not_covers_of_empty hempty))
  · exact fun i hi => absurd hi.2 (Bool.eq_false_iff.mp (Span.not_covers_of_empty hempty))

/-- Tokens have extent. -/
theorem Covers.token_lt (h : Covers src p es q) {tok : Token} (htok : .token tok ∈ es) : tok.start < tok.stop := by
  induction h with
  | done => cases htok
  | blank _ _ ih => exact ih htok
  | @event p q _ _ _ hspan hlt _ ih =>
    rcases List.mem_cons.mp htok with rfl | htok
    · obtain ⟨hstart, hstop⟩ := Span.mk.inj hspan
      omega
    · exact ih htok
  | point _ _ ih =>
    rcases List.mem_cons.mp htok with heq | htok
    · cases heq
    · exact ih htok

theorem Covers.count_before (h : Covers src p es q) {i : Nat} (hi : i < p) :
    (es.map Event.span).countP (·.covers i) = 0 := by
  rw [List.countP_eq_zero]
  intro s hs
  obtain ⟨e, he, rfl⟩ := List.mem_map.mp hs
  rw [Span.covers_iff]
  have hstart := h.start_le e he
  omega

/-- A byte that is no blank is part of one event. -/
theorem Covers.count_eq_one (h : Covers src p es q) {i : Nat} (hlow : p ≤ i) (hhigh : i < q) {b : UInt8}
    (hb : src[i]? = some b) (hblank : ¬ Token.IsBlank b) : (es.map Event.span).countP (·.covers i) = 1 := by
  induction h with
  | done => omega
  | @blank p q _ _ hgap _ ih =>
    by_cases hi : i < q
    · exact absurd (hgap.blank i hlow hi b hb) hblank
    · exact ih (by omega) hhigh
  | @event p q _ e es hspan hlt hrest ih =>
    rw [List.map_cons, hspan]
    by_cases hi : i < q
    · have hcovers : (Span.mk p q).covers i = true :=
        Span.covers_iff.mpr ⟨Int.ofNat_le.mpr hlow, Int.ofNat_lt.mpr hi⟩
      rw [List.countP_cons, hrest.count_before hi, if_pos hcovers]
    · rw [List.countP_cons_of_neg, ih (by omega) hhigh]
      rw [Span.covers_iff]
      dsimp only
      omega
  | point hspan _ ih =>
    rw [List.map_cons, List.countP_cons_of_neg, ih hlow hhigh]
    exact Bool.eq_false_iff.mp (Span.not_covers_of_empty hspan)

/-! ## Tokens and error nodes -/

theorem perm_spans (es : List Event) :
    ((tokensOf es).map (·.span) ++ (faultsOf es).map (·.span)).Perm (es.map Event.span) := by
  induction es with
  | nil => exact .refl _
  | cons e es ih =>
    cases e with
    | token tok => exact .cons _ ih
    | fault node => exact List.perm_middle.trans (.cons _ ih)

/-- Tokens are consumed in the order of the source. -/
theorem Covers.tokens_pairwise (h : Covers src p es q) :
    (tokensOf es).Pairwise fun a b => a.stop ≤ b.start := by
  rw [tokensOf, List.pairwise_filterMap]
  refine (List.pairwise_iff_forall_sublist.mpr fun {e f} hsub => ?_)
  have hpair := List.pairwise_iff_forall_sublist.mp h.pairwise hsub
  intro tok htok tok' htok'
  cases e <;> cases htok
  cases f <;> cases htok'
  have hlt := h.token_lt (hsub.subset (List.mem_cons_self ..))
  have hlt' := h.token_lt (hsub.subset (List.mem_cons_of_mem _ (List.mem_cons_self ..)))
  change (tok.stop : Int) ≤ tok'.start ∨ (tok.stop : Int) = tok.start ∨ (tok'.stop : Int) = tok'.start at hpair
  omega

/-! ## The end of a parse -/

variable {setup : Setup} {exact : Prop} {s t : Snapshot} {stmts : List Node}

/-- Where the statements of a program end, the parse has stopped or only blanks are left. -/
theorem Reads.ends_program {prod : Production} {a : prod.Answer} (h : Reads setup exact prod s a t)
    (hprod : prod = .statements .empty) :
    t.halted = true ∨ setup.src.length ≤ Token.skipBlank setup.src t.pos false := by
  induction h <;> cases hprod
  case halted hhalted => exact .inl hhalted
  case off => exact .inl rfl
  case noMore hlook hends =>
    have hempty (k : Token.Kind) : KindSet.empty.has k = false := by cases k <;> rfl
    rcases hends with heof | hstop
    · obtain ⟨bound, -, hscanned⟩ := hlook.scanned
      have hlength := hscanned.eof_iff.mp heof
      right
      cases hkeep : (Snapshot.accepted _ (stmtStart ∪ separators ∪ .empty)).has .newline with
      | true =>
        rw [hkeep] at hlength
        exact Nat.le_trans hlength (Token.skipBlank_mono ..)
      | false =>
        rw [hkeep] at hlength
        exact hlength
    · rw [hempty] at hstop
      cases hstop
  case separator ih => exact ih rfl
  case next ih => exact ih rfl

/-- The tokens and the error nodes of a parse, in the order of the source. -/
theorem Outcome.covers (h : Outcome setup exact stmts t) :
    ∃ es n, Covers setup.src 0 es n ∧ setup.src.length ≤ n ∧ (parse setup).tokens = tokensOf es ∧
      (parse setup).tree.errors = faultsOf es := by
  obtain ⟨es, hes, herrors⟩ : ∃ es, Traced setup .origin es t ∧ stmts.flatMap Node.errors = faultsOf es :=
    h.reads.traced trivial _ rfl
  have htokens : (parse setup).tokens = tokensOf es := by
    rw [h.tokens_eq, hes.consumed, List.reverse_append, List.reverse_reverse]
    rfl
  have htree : (parse setup).tree.errors = faultsOf es ++ (unread setup t).flatMap Node.errors := by
    rw [h.tree_eq, Node.errors_of_kind Kind.noConfusion, wholeTree, List.flatMap_append, herrors]
  have hgap := Gap.skipBlank setup.src t.pos false
  by_cases hrest : t.halted = true ∧ Token.skipBlank setup.src t.pos false < setup.src.length
  · have hunread : unread setup t =
        [faultNode setup .stopped ⟨Token.skipBlank setup.src t.pos false, setup.src.length⟩] := if_pos hrest
    refine ⟨es ++ [.fault (faultNode setup .stopped ⟨Token.skipBlank setup.src t.pos false, setup.src.length⟩)],
      setup.src.length, hes.covers.append (.blank hgap (.event rfl hrest.2 (.done _))), Nat.le_refl _, ?_, ?_⟩
    · rw [htokens, tokensOf_append]
      exact (List.append_nil _).symm
    · rw [htree, hunread, faultsOf_append, List.flatMap_singleton, errors_faultNode]
      rfl
  · have hunread : unread setup t = [] := if_neg hrest
    refine ⟨es, Token.skipBlank setup.src t.pos false, ?_, ?_, htokens, ?_⟩
    · have hend := hes.covers.append (.blank hgap (.done _))
      rwa [List.append_nil] at hend
    · rcases h.reads.ends_program rfl with hhalted | hend
      · exact Nat.le_of_not_lt fun hlt => hrest ⟨hhalted, hlt⟩
      · exact hend
    · rw [htree, hunread, List.flatMap_nil, List.append_nil]

/-- Nothing of a source is lost and nothing is used twice, whether or not it fits the grammar: tokens come
in the order of the source, neither tokens nor error nodes overlap, and each byte that is no blank is part of
one of them. -/
theorem parse_accounts_for_source (setup : Setup) :
    (parse setup).tokens.Pairwise (fun a b => a.stop ≤ b.start) ∧
      (parse setup).accounted.Pairwise Span.Apart ∧
      ∀ i b, setup.src[i]? = some b → ¬ Token.IsBlank b →
        (parse setup).accounted.countP (·.covers i) = 1 := by
  obtain ⟨stmts, t, houtcome⟩ := parse_outcome setup False False.elim
  obtain ⟨es, n, hcovers, hlength, htokens, herrors⟩ := houtcome.covers
  have hperm := perm_spans es
  rw [Parsed.accounted, htokens, herrors]
  refine ⟨hcovers.tokens_pairwise, ?_, fun i b hb hblank => ?_⟩
  · have hall := (hperm.pairwise_iff Span.Apart.symm).mpr hcovers.apart
    exact hall.sublist (List.filter_sublist.append_left _)
  · have hi : i < setup.src.length := (List.getElem?_eq_some_iff.mp hb).1
    have hcount := hcovers.count_eq_one (Nat.zero_le i) (Nat.lt_of_lt_of_le hi hlength) hb hblank
    rw [← hperm.countP_eq, List.countP_append] at hcount
    rw [List.countP_append, List.countP_filter, ← hcount]
    congr 1
    refine List.countP_congr fun s _ => ?_
    rw [Bool.and_eq_true, and_iff_left_iff_imp, bne_iff_ne]
    intro hs hempty
    rw [Span.not_covers_of_empty hempty] at hs
    cases hs

end Grammar
end Tree
end Bareword
