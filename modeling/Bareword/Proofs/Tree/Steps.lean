import Bareword.Proofs.Scope.Fingerprints
import Bareword.Proofs.Tree.Progress
import Std.Data.HashMap.Lemmas

/-! # Steps of a parse

What the steps of a parse do to the states that it goes through, in the terms of the grammar.

* `Good`: the states that a parse goes through.
* `Trusted`: what makes a look exact, which is that nothing is remembered or that no fingerprints collide.
* `Meets`: a step that ends well, with an answer of which something is known.
* `meets_peek`, `meets_shift`, `meets_complain`: the steps, one lemma each.
-/

namespace Bareword.Tree.Grammar
set_option autoImplicit false
open Token (KindSet Memo)
open Scope (Context Arena)
open Parsing

/-! ## States -/

/-- The names that a scope of an arena binds. -/
def boundIn (a : Arena) (id : Nat) (name : Text) : Bool := (a.bindings id).any (Scope.holds · name)

section
variable (setup : Setup)

/-- The states of a parse: inside the source, with a sound scope, and remembered tokens are those of
scopes of the arena. -/
structure Good (s : State) : Prop where
  pos : s.pos ≤ setup.src.length
  scope : s.scope.Sound setup.hasher
  memo : ∀ (query : Token.Query) (tok : Token), s.memo.answers[query]? = some tok →
    ∃ id, id < s.scope.arena.size ∧ s.scope.arena.hash? id = some query.scope ∧
      tok = Token.scan setup.src query.pos query.accept (some (boundIn s.scope.arena id))

/-- No scope that a look depends on can be taken for another one. -/
def Trusted (exact : Prop) (s : State) : Prop :=
  exact → setup.policy.memoize = true →
    setup.policy.keepScopes = true ∧ s.scope.arena.CollisionFree setup.hasher

/-- The scopes of one state are those of a later one, if they are kept. -/
def Later (s t : State) : Prop := setup.policy.keepScopes = true → s.scope.arena.Extends t.scope.arena

/-- From a good state the step ends in a good one, and if looks are exact, with an answer and a snapshot
of which `post` holds. -/
structure Meets {α : Type} (x : Parse α) (s : State) (post : Prop → α → Snapshot → Prop) : Prop where
  good : Good setup (x s).2
  later : Later setup s (x s).2
  post : ∀ exact, Trusted setup exact (x s).2 → post exact (x s).1 (view (x s).2)

end

variable {setup : Setup} {α β : Type} {s : State}

theorem Later.refl (s : State) : Later setup s s := fun _ => .refl _

theorem Later.trans {t u : State} (h : Later setup s t) (h' : Later setup t u) : Later setup s u :=
  fun hkeep => (h hkeep).trans (h' hkeep)

theorem Trusted.of_later {exact : Prop} {t : State} (h : Trusted setup exact t) (hs : Good setup s)
    (hlater : Later setup s t) : Trusted setup exact s := by
  intro hexact hmemo
  obtain ⟨hkeep, hfree⟩ := h hexact hmemo
  exact ⟨hkeep, hfree.of_extends hs.scope.arena (hlater hkeep)⟩

namespace Meets
variable {x : Parse α} {f : α → Parse β} {post : Prop → α → Snapshot → Prop} {post' : Prop → β → Snapshot → Prop}

theorem pure {a : α} (hs : Good setup s) (h : ∀ exact, post exact a (view s)) :
    Meets setup (Pure.pure a) s post :=
  ⟨hs, .refl _, fun exact _ => h exact⟩

theorem imp {post' : Prop → α → Snapshot → Prop} (h : Meets setup x s post)
    (himp : ∀ exact a v, post exact a v → post' exact a v) : Meets setup x s post' :=
  ⟨h.good, h.later, fun exact htrusted => himp exact _ _ (h.post exact htrusted)⟩

/-- What the first step gives can be used in the second. -/
theorem bind_later (h : Meets setup x s post)
    (hrest : ∀ a t, Good setup t → Later setup s t → post False a (view t) →
      Meets setup (f a) t fun exact b v => post exact a (view t) → post' exact b v) :
    Meets setup (x >>= f) s post' := by
  have hnext := hrest (x s).1 (x s).2 h.good h.later (h.post False fun hfalse => hfalse.elim)
  refine ⟨hnext.good, h.later.trans hnext.later, fun exact htrusted => ?_⟩
  exact hnext.post exact htrusted (h.post exact (htrusted.of_later h.good hnext.later))

theorem bind (h : Meets setup x s post)
    (hrest : ∀ a t, Good setup t → post False a (view t) →
      Meets setup (f a) t fun exact b v => post exact a (view t) → post' exact b v) :
    Meets setup (x >>= f) s post' :=
  h.bind_later fun a t ht _ => hrest a t ht

theorem ite {c : Prop} [Decidable c] {y : Parse α} (hx : c → Meets setup x s post)
    (hy : ¬ c → Meets setup y s post) : Meets setup (if c then x else y) s post := by
  by_cases hc : c
  · rw [if_pos hc]
    exact hx hc
  · rw [if_neg hc]
    exact hy hc

end Meets

/-! ## Steps -/

theorem Meets.get {f : State → Parse α} {post : Prop → α → Snapshot → Prop} (h : Meets setup (f s) s post) :
    Meets setup (get >>= f) s post :=
  ⟨h.good, h.later, h.post⟩

theorem Good.bindable (hs : Good setup s) {id : Nat} {name : Text} (h : boundIn s.scope.arena id name = true) :
    Token.Bindable name := by
  obtain ⟨names, hnames, hholds⟩ := List.any_eq_true.mp h
  exact hs.scope.arena.bindable_of_mem hnames (Scope.mem_of_holds hholds)

/-- A good state stays good if the scope and the memo stay, whatever else changes. -/
theorem Good.with {t : State} (hs : Good setup s) (hpos : t.pos ≤ setup.src.length) (hscope : t.scope = s.scope)
    (hmemo : t.memo = s.memo) : Good setup t := by
  refine ⟨hpos, ?_, ?_⟩
  · rw [hscope]
    exact hs.scope
  · rw [hscope, hmemo]
    exact hs.memo

/-- A good state stays good with a later scope. -/
theorem Good.withScope (hs : Good setup s) {t : State} (hpos : t.pos ≤ setup.src.length)
    (hscope : t.scope.Sound setup.hasher) (hext : s.scope.arena.Extends t.scope.arena) (hmemo : t.memo = s.memo) :
    Good setup t := by
  refine ⟨hpos, hscope, ?_⟩
  intro query tok h
  rw [hmemo] at h
  obtain ⟨id, hid, hhash, htok⟩ := hs.memo query tok h
  refine ⟨id, Nat.lt_of_lt_of_le hid hext.size_le, ?_, ?_⟩
  · rw [Arena.hash?_of_extends hext hid, hhash]
  · have hbound : boundIn t.scope.arena id = boundIn s.scope.arena id := by
      funext name
      rw [boundIn, boundIn, Arena.bindings_of_extends hext hid]
    rw [hbound, htok]

section Remembered
variable {m : Memo} {src : Text} {pos : Nat} {accept : KindSet} {context : Context}

theorem next_of_some {tok : Token} (h : m.answers[(⟨pos, accept, context.hash⟩ : Token.Query)]? = some tok) :
    m.next src pos accept (some context) = (tok, { m with hits := m.hits + 1 }) := by
  rw [Memo.next, Memo.ask]
  dsimp only [Option.map_some, Option.getD_some]
  rw [h]

theorem next_of_none (h : m.answers[(⟨pos, accept, context.hash⟩ : Token.Query)]? = none) :
    m.next src pos accept (some context) =
      (Token.scan src pos accept (some context.has),
        { m with
          answers := m.answers.insert ⟨pos, accept, context.hash⟩ (Token.scan src pos accept (some context.has)) }) := by
  rw [Memo.next, Memo.ask]
  dsimp only [Option.map_some, Option.getD_some]
  rw [h]

end Remembered

theorem meets_peek (hs : Good setup s) (accept : KindSet) :
    Meets setup (peek setup accept) s fun exact tok v => v = view s ∧ Looks setup exact (view s) accept tok := by
  have hbindable : ∀ id name, boundIn s.scope.arena id name = true → Token.Bindable name :=
    fun id name => hs.bindable
  cases hmemo : setup.policy.memoize with
  | false =>
    have hpeek : peek setup accept s = (Token.scan setup.src s.pos ((view s).accepted accept) (some s.scope.has), s) := by
      change (if setup.policy.memoize then _ else _) = _
      rw [hmemo]
      rfl
    have hhas : s.scope.has = boundIn s.scope.arena s.scope.scope := s.scope.has_eq
    refine ⟨?_, ?_, ?_⟩ <;> rw [hpeek]
    · exact hs
    · exact .refl _
    · exact fun exact _ => ⟨rfl, s.scope.has, fun name h => hbindable s.scope.scope name (hhas ▸ h), fun _ => hhas, rfl⟩
  | true =>
    have hpeek : peek setup accept s =
        ((s.memo.next setup.src s.pos ((view s).accepted accept) (some s.scope)).1,
          { s with memo := (s.memo.next setup.src s.pos ((view s).accepted accept) (some s.scope)).2 }) := by
      change (if setup.policy.memoize then _ else _) = _
      rw [hmemo]
      rfl
    obtain ⟨r, hr⟩ := Arena.get?_eq_some_iff.mpr hs.scope.lt
    have hhash : s.scope.arena.hash? s.scope.scope = some s.scope.hash := by
      rw [Context.hash, Arena.hash?, hr]
      rfl
    have hhas : s.scope.has = boundIn s.scope.arena s.scope.scope := s.scope.has_eq
    cases hanswer : s.memo.answers[(⟨s.pos, (view s).accepted accept, s.scope.hash⟩ : Token.Query)]? with
    | some tok =>
      rw [next_of_some hanswer] at hpeek
      obtain ⟨id, hid, hidhash, htok⟩ := hs.memo _ _ hanswer
      refine ⟨?_, ?_, ?_⟩ <;> rw [hpeek]
      · exact ⟨hs.pos, hs.scope, hs.memo⟩
      · exact .refl _
      · refine fun exact htrusted => ⟨rfl, boundIn s.scope.arena id, hbindable id, fun hexact => ?_, htok⟩
        have hsame := Arena.bindings_eq_of_hash hs.scope.arena (htrusted hexact hmemo).2 hidhash hhash
        funext name
        rw [boundIn, hsame]
        rfl
    | none =>
      rw [next_of_none hanswer] at hpeek
      refine ⟨?_, ?_, ?_⟩ <;> rw [hpeek]
      · refine ⟨hs.pos, hs.scope, fun query tok h => ?_⟩
        rw [Std.HashMap.getElem?_insert] at h
        split at h
        · rename_i hquery
          cases h
          rw [← eq_of_beq hquery]
          exact ⟨s.scope.scope, hs.scope.lt, hhash, by rw [hhas]⟩
        · exact hs.memo query tok h
      · exact .refl _
      · exact fun exact _ => ⟨rfl, s.scope.has, fun name h => hbindable s.scope.scope name (hhas ▸ h), fun _ => hhas, rfl⟩

/-- A look changes nothing that a parse depends on, and what follows it knows the next token. -/
theorem Meets.afterPeek (hs : Good setup s) (accept : KindSet) {f : Token → Parse α}
    {post : Prop → α → Snapshot → Prop}
    (h : ∀ tok t, Good setup t → view t = view s → Looks setup False (view s) accept tok →
      Meets setup (f tok) t fun exact a v => Looks setup exact (view s) accept tok → post exact a v) :
    Meets setup (peek setup accept >>= f) s post := by
  refine (meets_peek hs accept).bind ?_
  rintro tok t ht ⟨hview, hlook⟩
  exact (h tok t ht hview hlook).imp fun exact a v hpost hlook => hpost hlook.2

theorem meets_shift (hs : Good setup s) {tok : Token} (hadmits : tok.kind.Admits tok.text)
    (hstop : tok.stop ≤ setup.src.length) :
    Meets setup (shift tok) s fun _ _ v => v = (view s).shift tok := by
  obtain ⟨hscope, hnames, harena⟩ := hs.scope.shift hadmits
  have hext : s.scope.arena.Extends (s.scope.shift tok.kind tok.text).arena := harena ▸ .refl _
  refine ⟨hs.withScope hstop hscope hext rfl, fun _ => hext, fun _ _ => ?_⟩
  exact congrArg (Snapshot.mk tok.stop · s.parens s.depth s.faults s.halted (tok :: s.consumed) s.looks) hnames

/-- A token that is seen can be consumed. -/
theorem meets_shift_of_looks (hs : Good setup s) {exact : Prop} {accept : KindSet} {tok : Token}
    (hlook : Looks setup exact (view s) accept tok) (hk : tok.kind ≠ .eof) :
    Meets setup (shift tok) s fun _ _ v => v = (view s).shift tok :=
  meets_shift hs (hlook.stands hk).admits (hlook.stop_le hk)

/-- What follows the consumption of a token that is seen starts behind that token. -/
theorem Meets.afterShift (hs : Good setup s) {accept : KindSet} {tok : Token} {f : Unit → Parse α}
    {post : Prop → α → Snapshot → Prop} (hlook : Looks setup False (view s) accept tok) (hk : tok.kind ≠ .eof)
    (h : ∀ t, Good setup t → view t = (view s).shift tok → s.pos < t.pos → Meets setup (f ()) t post) :
    Meets setup (shift tok >>= f) s post := by
  refine (meets_shift_of_looks hs hlook hk).bind ?_
  rintro _ t ht hshift
  have hpos : t.pos = tok.stop := congrArg Snapshot.pos hshift
  exact (h t ht hshift (hpos ▸ hlook.lt_stop hk)).imp fun exact a v hpost _ => hpost

theorem meets_advance (hs : Good setup s) {tok : Token} (hstop : tok.stop ≤ setup.src.length) :
    Meets setup (advance tok) s fun _ _ v => v = (view s).advance tok :=
  ⟨hs.with hstop rfl rfl, .refl _, fun _ _ => rfl⟩

theorem meets_moveTo (hs : Good setup s) {pos : Nat} (hpos : pos ≤ setup.src.length) :
    Meets setup (moveTo pos) s fun _ _ v => v = (view s).moveTo pos :=
  ⟨hs.with hpos rfl rfl, .refl _, fun _ _ => rfl⟩

theorem meets_reduce (hs : Good setup s) (kind : Kind) :
    Meets setup (reduce setup kind) s fun _ _ v => v = (view s).reduce kind := by
  obtain ⟨hscope, hnames, hext⟩ := hs.scope.reduce kind
  refine ⟨hs.withScope hs.pos hscope hext rfl, fun _ => hext, fun _ _ => ?_⟩
  exact congrArg (Snapshot.mk s.pos · s.parens s.depth s.faults s.halted s.consumed s.looks) hnames

theorem meets_modify (hs : Good setup s) {f : State → State} (hpos : (f s).pos = s.pos)
    (hscope : (f s).scope = s.scope) (hmemo : (f s).memo = s.memo) :
    Meets setup (modify f : Parse Unit) s fun _ _ v => v = view (f s) := by
  refine ⟨hs.with ?_ hscope hmemo, ?_, fun _ _ => rfl⟩
  · exact hpos.symm ▸ hs.pos
  · intro _
    change s.scope.arena.Extends (f s).scope.arena
    rw [hscope]
    exact .refl _

theorem meets_complain (hs : Good setup s) (c : Complaint) (span : Span) :
    Meets setup (complain setup c span) s fun _ node v =>
      node = faultNode setup c span ∧ v = (view s).complain setup c span :=
  ⟨hs.with hs.pos rfl rfl, .refl _, fun _ _ => ⟨rfl, rfl⟩⟩

theorem meets_missing (hs : Good setup s) (c : Complaint) :
    Meets setup (missing setup c) s fun _ node v =>
      node = faultNode setup c ((view s).here setup) ∧ v = (view s).complain setup c ((view s).here setup) :=
  ⟨hs.with hs.pos rfl rfl, .refl _, fun _ _ => ⟨rfl, rfl⟩⟩

theorem meets_unexpected (hs : Good setup s) {tok : Token} (hstop : tok.stop ≤ setup.src.length) :
    Meets setup (unexpected setup tok) s fun _ node v =>
      node = faultNode setup (.unexpected tok) tok.span ∧
        v = ((view s).moveTo tok.stop).complain setup (.unexpected tok) tok.span :=
  ⟨hs.with hstop rfl rfl, .refl _, fun _ _ => ⟨rfl, rfl⟩⟩

theorem meets_skipStatement (hs : Good setup s) (c : Complaint) :
    Meets setup (skipStatement setup c) s fun _ node v =>
      node = faultNode setup c ((view s).junk setup) ∧ v = (view s).skip setup c :=
  ⟨hs.with (skipRange_le s.parens hs.pos).2 rfl rfl, .refl _, fun _ _ => ⟨rfl, rfl⟩⟩

theorem meets_calledOff (hs : Good setup s) (hhalted : s.halted = false) :
    Meets setup (calledOff setup) s fun _ off v =>
      off = setup.isOff s.looks ∧ v = if off then (view s).callOff setup else (view s).count := by
  have hrun : calledOff setup s = (if setup.isOff s.looks then do
        unless s.halted do
          let _ ← complain setup (.cancelled setup.reason) (.point (Token.skipBlank setup.src s.pos false))
          modify fun s => { s with halted := true }
        return true
      else return false : Parse Bool) { s with looks := s.looks + 1 } := rfl
  cases hoff : setup.isOff s.looks with
  | false =>
    rw [hoff] at hrun
    refine ⟨?_, ?_, ?_⟩ <;> rw [hrun]
    · exact hs.with hs.pos rfl rfl
    · exact .refl _
    · exact fun _ _ => ⟨rfl, rfl⟩
  | true =>
    rw [hoff, hhalted] at hrun
    refine ⟨?_, ?_, ?_⟩ <;> rw [hrun]
    · exact hs.with hs.pos rfl rfl
    · exact .refl _
    · exact fun _ _ => ⟨rfl, rfl⟩

/-- An attempt that is given up leaves nothing behind but what was looked at. -/
theorem meets_restore {mark : State} (hs : Good setup s) (hmark : Good setup mark) (hlater : Later setup mark s)
    (hparens : s.parens = mark.parens) (hdepth : s.depth = mark.depth) :
    Meets setup (restore setup mark) s fun _ _ v => v = (view mark).back s.looks := by
  cases hkeep : setup.policy.keepScopes with
  | true =>
    have hrun : restore setup mark s = ((), { s with
        pos := mark.pos
        scope := mark.scope.rewind s.scope
        faults := mark.faults
        halted := mark.halted
        consumed := mark.consumed }) := by
      change ((), if setup.policy.keepScopes then _ else _) = _
      rw [hkeep]
      rfl
    obtain ⟨hscope, hnames⟩ := hmark.scope.rewind hs.scope.arena (hlater hkeep)
    refine ⟨?_, ?_, ?_⟩ <;> rw [hrun]
    · exact ⟨hmark.pos, hscope, hs.memo⟩
    · exact fun _ => .refl _
    · intro _ _
      rw [view, hnames, hparens, hdepth]
      rfl
  | false =>
    have hrun : restore setup mark s = ((), { mark with looks := s.looks }) := by
      change ((), if setup.policy.keepScopes then _ else _) = _
      rw [hkeep]
      rfl
    refine ⟨?_, ?_, ?_⟩ <;> rw [hrun]
    · exact hmark.with hmark.pos rfl rfl
    · exact fun h => absurd (hkeep.symm.trans h) Bool.false_ne_true
    · exact fun _ _ => rfl

/-! ## Productions without recursion -/

theorem meets_expect (hs : Good setup s) (accept : KindSet) {k : Token.Kind} (hk : k ≠ .eof) (leaf : Kind)
    (c : Complaint) :
    Meets setup (do
      let tok ← peek setup accept
      if tok.kind = k then
        shift tok
        return .leaf leaf tok
      else missing setup c) s fun exact node v => Expects setup exact (view s) accept k leaf c node v := by
  refine .afterPeek hs accept fun tok t ht hview hlook => ?_
  rw [← hview] at hlook ⊢
  refine .ite (fun hkind => ?_) (fun hkind => ?_)
  · refine .afterShift ht hlook (tok_ne hkind hk) fun u hu hshift _ => .pure hu fun exact hlook => ?_
    rw [hshift]
    exact .found hlook hkind
  · refine (meets_missing ht c).imp ?_
    rintro exact node v ⟨rfl, rfl⟩ hlook
    exact .absent hlook hkind

theorem meets_colon (hs : Good setup s) :
    Meets setup (colon setup) s fun exact node v => Colon setup exact (view s) node v :=
  meets_expect hs _ Token.Kind.noConfusion _ _

theorem meets_endStatement (hs : Good setup s) (stop : KindSet) :
    Meets setup (endStatement setup stop) s fun exact junk v => EndStatement setup exact (view s) stop junk v := by
  rw [endStatement]
  refine .afterPeek hs _ fun tok t ht hview hlook => ?_
  rw [← hview] at hlook ⊢
  refine .get (.ite (fun hends => ?_) (fun hends => ?_))
  · refine .pure ht fun exact hlook => .clean hlook ?_
    rcases hends with h | h | h | h
    · exact .inl h
    · exact .inr (.inl h)
    · exact .inr (.inr (.inl h))
    · exact .inr (.inr (.inr (.inl h)))
  · refine .ite (fun hparen => ?_) (fun hparen => ?_)
    · exact .pure ht fun exact hlook => .clean hlook (.inr (.inr (.inr (.inr hparen))))
    · refine (meets_skipStatement ht _).bind ?_
      rintro junk v hv ⟨hjunk, hview'⟩
      refine .pure hv fun exact _ hlook => ?_
      rw [hjunk, hview']
      refine .junk hlook ?_
      rintro (h | h | h | h | h)
      · exact hends (.inl h)
      · exact hends (.inr (.inl h))
      · exact hends (.inr (.inr (.inl h)))
      · exact hends (.inr (.inr (.inr h)))
      · exact hparen h

theorem meets_closeBody (hs : Good setup s) (node : Node) (block : Bool) :
    Meets setup (closeBody setup node block) s fun exact whole v =>
      CloseBody setup exact (view s) node block whole v := by
  rw [closeBody]
  refine .afterPeek hs _ fun tok t ht hview hlook => ?_
  rw [← hview] at hlook ⊢
  refine .ite (fun hk => ?_) (fun hk => ?_)
  · refine .afterShift ht hlook (tok_ne hk Token.Kind.noConfusion) fun u hu hshift _ =>
      .pure hu fun exact hlook => ?_
    rw [hshift]
    exact .closed hlook hk
  · refine .ite (fun hblock => ?_) (fun hblock => ?_)
    · refine (meets_missing ht .noEnd).bind ?_
      rintro bad u hu ⟨hbad, hview'⟩
      refine .pure hu fun exact _ hlook => ?_
      rw [hbad, hview']
      exact .missing hlook hk hblock
    · exact .pure ht fun exact hlook => .without hlook hk (Bool.eq_false_iff.mpr hblock)

theorem meets_thenBlock (hs : Good setup s) (stmts : List Node) :
    Meets setup (thenBlock stmts) s fun _ node v => node = blockNode (view s).pos stmts ∧ v = view s := by
  rw [thenBlock, blockNode]
  cases stmts.isEmpty with
  | true => exact ⟨hs, .refl _, fun _ _ => ⟨rfl, rfl⟩⟩
  | false => exact ⟨hs, .refl _, fun _ _ => ⟨rfl, rfl⟩⟩

theorem meets_callOrIdentifier (hs : Good setup s) (id : Node) :
    Meets setup (callOrIdentifier setup id) s fun _ node v => node = loneName setup (view s).names id ∧ v = view s := by
  refine ⟨hs, .refl _, fun _ _ => ⟨?_, rfl⟩⟩
  have hnames : (view s).names.has = s.scope.has := s.scope.has_eq.symm
  rw [loneName, hnames]
  rfl

/-- The property follows the name, whether or not there was a dot. -/
theorem meets_property (hs : Good setup s) {s₀ : Snapshot} {tok dot : Token}
    (hpast : view s = (s₀.shift tok).pastDot dot) :
    Meets setup (do
      let prop ← peek setup (.of [.identifier])
      if prop.kind = .identifier ∧ prop.start = (← get).pos then
        shift prop
        return (Node.branch .dotGet [.leaf .identifier tok]).push (.leaf .identifier prop)
      else return (Node.branch .dotGet [.leaf .identifier tok]).push (← missing setup .noProperty)) s
      fun exact node v => Looks setup exact (s₀.shift tok) (.of [.dot]) dot → DotGet setup exact s₀ tok node v := by
  refine .afterPeek hs _ fun prop t ht hview hprop => ?_
  rw [hpast] at hview hprop ⊢
  have hpos : t.pos = ((s₀.shift tok).pastDot dot).pos := congrArg Snapshot.pos hview
  refine .get ?_
  rw [hpos]
  refine .ite (fun hk => ?_) (fun hk => ?_)
  · refine .afterShift ht (hview.symm ▸ hprop) (tok_ne hk.1 Token.Kind.noConfusion) fun u hu hshift _ =>
      .pure hu fun exact hprop hdot => ?_
    rw [hshift, hview]
    exact .found hdot hprop hk.1 hk.2
  · refine (meets_missing ht .noProperty).bind ?_
    rintro bad u hu ⟨hbad, hcomplain⟩
    refine .pure hu fun exact _ hprop hdot => ?_
    rw [hbad, hcomplain, hview]
    exact .absent hdot hprop hk

theorem meets_dotGet (hs : Good setup s) {tok : Token} (hheld : Held setup False (view s) tok)
    (hk : tok.kind ≠ .eof) :
    Meets setup (dotGet setup tok) s fun exact node v => DotGet setup exact (view s) tok node v := by
  obtain ⟨accept, hfirst⟩ := hheld.looks
  rw [dotGet]
  refine .afterShift hs hfirst hk fun t ht hshift _ => .afterPeek ht _ fun dot u hu hview hdot => ?_
  rw [hshift] at hview hdot ⊢
  dsimp only
  refine .ite (fun hk' => ?_) (fun hk' => ?_)
  · refine .afterShift hu (hview.symm ▸ hdot) (tok_ne hk' Token.Kind.noConfusion) fun v hv hshift' _ =>
      meets_property hv ?_
    rw [hshift', hview, Snapshot.pastDot, if_pos hk']
  · refine meets_property hu ?_
    rw [hview, Snapshot.pastDot, if_neg hk']

theorem meets_params (hs : Good setup s) {fuel : Nat} (hfuel : setup.src.length - s.pos < fuel) (node : Node) :
    Meets setup (params setup fuel node) s fun exact list v => Params setup exact (view s) node list v := by
  induction fuel generalizing s node with
  | zero => omega
  | succ fuel ih =>
    rw [params]
    refine .afterPeek hs _ fun tok t ht hview hlook => ?_
    rw [← hview] at hlook ⊢
    have hpos : t.pos = s.pos := congrArg Snapshot.pos hview
    refine .ite (fun hk => ?_) (fun hname => .ite (fun hk => ?_) (fun hbad => ?_))
    · refine .afterShift ht hlook (tok_ne hk Token.Kind.noConfusion) fun u hu hshift hlt => ?_
      have hbound := hu.pos
      refine (ih hu (by omega) _).imp fun exact list v hrest hlook => ?_
      rw [hshift] at hrest
      exact .name hlook hk hrest
    · have hne : tok.kind ≠ .eof := tok_ne hk Token.Kind.noConfusion
      refine (meets_complain ht _ _).bind ?_
      rintro bad u hu ⟨hnode, hcomplain⟩
      refine (meets_moveTo hu (hlook.stop_le hne)).bind ?_
      rintro _ v hv hmove
      have hlt := hlook.lt_stop hne
      have hvpos : v.pos = tok.stop := congrArg Snapshot.pos hmove
      have hbound := hv.pos
      refine (ih hv ?_ _).imp ?_
      · change t.pos < tok.stop at hlt
        omega
      · intro exact list w hrest _ _ hlook
        rw [hmove, hcomplain, hnode] at hrest
        exact .bad hlook hk hrest
    · exact .pure ht fun exact hlook => .done hlook hname hbad

end Bareword.Tree.Grammar
