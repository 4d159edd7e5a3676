import Bareword.Proofs.Tree.Steps

/-! # The parser and the grammar

Every production does what the grammar says, with as much fuel as a parse has.

* `parserOf`: the parser of a production.
* `Production.need`: the fuel that is enough for a production.
* `meets_production`: with enough fuel a production reads what the grammar lets it read.
-/

namespace Bareword.Tree.Grammar
set_option autoImplicit false
open Token (KindSet)
open Parsing

variable {setup : Setup} {s : State}

/-! ## Fuel -/

def parserOf (setup : Setup) : (p : Production) → Nat → Parse p.Answer
  | .statements stop => statements setup stop
  | .statement => statement setup
  | .assign tok => assign setup tok
  | .body closers => body setup closers
  | .inlineBody closers => inlineBody setup closers
  | .inlineRest closers => inlineRest setup closers
  | .functionDef tok => functionDef setup tok
  | .ifExpr tok => ifExpr setup tok
  | .branches node block seenElse => branches setup node block seenElse
  | .expression => expression setup
  | .stages node tok => stages setup node tok
  | .binary minPrec callable => binary setup minPrec callable
  | .operators minPrec left => operators setup minPrec left
  | .operand tok callable => operand setup tok callable
  | .operandBody tok callable => operandBody setup tok callable
  | .call id => call setup id
  | .args node tok => args setup node tok
  | .arg tok => arg setup tok
  | .parenBody opening => parenBody setup opening
  | .stringPieces quote node => stringPieces setup quote node
  | .wordPieces node => wordPieces setup node
  | .piece tok => piece setup tok

/-- How many productions can follow each other at one place, at most. -/
def Production.rank : Production → Nat
  | .body _ => 9
  | .inlineBody _ | .statements _ => 8
  | .call _ | .parenBody _ | .statement => 7
  | .args _ _ | .expression => 6
  | .binary _ _ | .arg _ => 5
  | .operand _ _ => 4
  | .operandBody _ _ => 3
  | .stringPieces _ _ | .wordPieces _ => 2
  | _ => 1

/-- The fuel that a production needs at an offset. -/
def Production.need (p : Production) (length pos : Nat) : Nat := 16 * (length - pos) + p.rank

theorem Production.rank_le (p : Production) : p.rank ≤ 9 := by
  cases p <;> simp [rank]

theorem Production.need_of_lt {p q : Production} {length pos pos' fuel : Nat} (hfuel : p.need length pos ≤ fuel + 1)
    (hlt : pos < pos') (hbound : pos' ≤ length) : q.need length pos' ≤ fuel := by
  have hrank := q.rank_le
  rw [need] at hfuel ⊢
  omega

theorem Production.need_of_rank {p q : Production} {length pos pos' fuel : Nat} (hfuel : p.need length pos ≤ fuel + 1)
    (hle : pos ≤ pos') (hrank : q.rank < p.rank) : q.need length pos' ≤ fuel := by
  rw [need] at hfuel ⊢
  omega

/-- What a production relies on where it starts. -/
def Production.Ready (setup : Setup) (exact : Prop) : Production → Snapshot → Prop
  | .assign tok, s => Held setup exact s tok ∧ tok.kind = .assignable
  | .functionDef tok, s => Held setup exact s tok ∧ tok.kind = .kwFn
  | .ifExpr tok, s => Held setup exact s tok ∧ tok.kind = .kwIf
  | .stages _ tok, s => Held setup exact s tok ∧ tok.kind = .pipe
  | .operand tok _, s | .operandBody tok _, s => Held setup exact s tok
  | .args _ tok, s | .arg tok, s => Held setup exact s tok ∧ argStart.has tok.kind = true
  | .piece tok, s => Token.Piece setup.src s.pos tok ∧ tok.kind ≠ .fragment
  | _, _ => True

/-- With some fuel, every production that it is enough for reads what the grammar lets it read. -/
def AllMeet (setup : Setup) (fuel : Nat) : Prop :=
  ∀ (p : Production) (s : State), Good setup s → p.Ready setup False (view s) →
    p.need setup.src.length s.pos ≤ fuel →
      Meets setup (parserOf setup p fuel) s fun exact a v =>
        p.Ready setup exact (view s) → Reads setup exact p (view s) a v

section
variable {fuel : Nat}

theorem meets_statements (ih : AllMeet setup fuel) (hs : Good setup s) (stop : KindSet)
    (hfuel : (Production.statements stop).need setup.src.length s.pos ≤ fuel + 1) :
    Meets setup (statements setup stop (fuel + 1)) s fun exact a v =>
      Reads setup exact (.statements stop) (view s) a v := by
  rw [statements]
  refine .get (.ite (fun hhalted => .pure hs fun exact => .halted hhalted) (fun hhalted => ?_))
  have hgoing : s.halted = false := Bool.eq_false_iff.mpr hhalted
  refine (meets_calledOff hs hgoing).bind ?_
  rintro off t ht ⟨hoff, hview⟩
  cases off with
  | true =>
    refine .ite (fun _ => .pure ht fun exact _ => ?_) (fun h => absurd rfl h)
    rw [hview]
    exact .off hgoing hoff.symm
  | false =>
    refine .ite (fun h => nomatch h) (fun _ => ?_)
    refine .afterPeek ht _ fun tok u hu hview' hlook => ?_
    have hcount : view t = (view s).count := hview
    rw [hcount] at hview' hlook ⊢
    refine .ite (fun hends => .pure hu fun exact hlook _ => ?_) (fun hends => ?_)
    · rw [hview']
      exact .noMore hgoing hoff.symm hlook hends
    have hne : tok.kind ≠ .eof := fun heof => hends (.inl heof)
    have hpos : u.pos = s.pos := congrArg Snapshot.pos hview'
    refine .ite (fun hk => ?_) (fun hk => ?_)
    · refine .afterShift hu (hview'.symm ▸ hlook) hne fun w hw hshift hlt => ?_
      refine (ih (.statements stop) w hw trivial (Production.need_of_lt hfuel (hpos ▸ hlt) hw.pos)).imp ?_
      intro exact stmts v hrest hlook _
      rw [hshift, hview'] at hrest
      exact .separator hgoing hoff.symm hlook hends hk (hrest trivial)
    · refine (ih .statement u hu trivial (Production.need_of_rank hfuel (Nat.le_of_eq hpos.symm) (by simp [Production.rank]))).bind ?_
      rintro stmt w hw hstmt
      rw [hview'] at hstmt
      have hprogress := (hstmt trivial).progress
      have hlt : s.pos < w.pos :=
        hprogress.2 (hlook.skipBlank_lt_of_not_newline hne fun hline => hk (.inl hline))
      refine (meets_endStatement hw stop).bind ?_
      rintro junk x hx hjunk
      have hle : w.pos ≤ x.pos := hjunk.advances.le
      refine (ih (.statements stop) x hx trivial
        (Production.need_of_lt hfuel (Nat.lt_of_lt_of_le hlt hle) hx.pos)).bind ?_
      rintro stmts y hy hrest
      refine .pure hy fun exact hrest hjunk hstmt hlook _ => ?_
      rw [hview'] at hstmt
      exact .next hgoing hoff.symm hlook hends hk (hstmt trivial) hjunk (hrest trivial)

theorem meets_statement (ih : AllMeet setup fuel) (hs : Good setup s)
    (hfuel : Production.statement.need setup.src.length s.pos ≤ fuel + 1) :
    Meets setup (statement setup (fuel + 1)) s fun exact a v => Reads setup exact .statement (view s) a v := by
  rw [statement]
  refine .afterPeek hs _ fun tok t ht hview hlook => ?_
  have hle : s.pos ≤ t.pos := Nat.le_of_eq (congrArg Snapshot.pos hview).symm
  rw [← hview] at hlook ⊢
  refine .ite (fun hk => ?_) (fun hassign => .ite (fun hk => ?_) (fun hk => ?_))
  · have hready : (Production.assign tok).Ready setup False (view t) := ⟨⟨stmtStart, by decide, hlook⟩, hk⟩
    refine (ih (.assign tok) t ht hready (Production.need_of_rank hfuel hle (by simp [Production.rank]))).imp ?_
    intro exact node v h hlook
    exact .assignment hlook hk (h ⟨⟨stmtStart, by decide, hlook⟩, hk⟩)
  · refine (meets_skipStatement ht _).imp ?_
    rintro exact node v ⟨rfl, rfl⟩ hlook
    exact .noStatement hlook hassign (by simpa using hk)
  · refine (ih .expression t ht trivial (Production.need_of_rank hfuel hle (by simp [Production.rank]))).imp ?_
    intro exact node v h hlook
    exact .evaluate hlook hassign (by simpa using hk) (h trivial)

/-- The value of an assignment follows its operator, whether or not there was one. -/
theorem meets_assignValue (ih : AllMeet setup fuel) {p : Production} {pos : Nat} {tok : Token} (hs : Good setup s)
    (hfuel : p.need setup.src.length pos ≤ fuel + 1) (hlt : pos < s.pos) (hk : tok.kind = .assignable) (op : Node) :
    Meets setup (do
      let value ← expression setup fuel
      reduce setup .assign
      return ((Node.branch .assign [.leaf .assignable tok]).push op).push value) s fun exact node v =>
        ∀ s₀, Held setup exact s₀ tok →
          Expects setup exact (s₀.shift tok) (.of [.eq]) .eq .operator .noEquals op (view s) →
          Reads setup exact (.assign tok) s₀ node v := by
  refine (ih .expression s hs trivial (Production.need_of_lt hfuel hlt hs.pos)).bind ?_
  rintro value t ht _
  refine (meets_reduce ht .assign).bind ?_
  rintro _ u hu hreduce
  refine .pure hu fun exact _ hvalue s₀ hheld hop => ?_
  rw [hreduce]
  exact .assign hheld hk hop (hvalue trivial)

theorem meets_assign (ih : AllMeet setup fuel) (hs : Good setup s) {tok : Token}
    (hready : (Production.assign tok).Ready setup False (view s))
    (hfuel : (Production.assign tok).need setup.src.length s.pos ≤ fuel + 1) :
    Meets setup (assign setup tok (fuel + 1)) s fun exact a v =>
      (Production.assign tok).Ready setup exact (view s) → Reads setup exact (.assign tok) (view s) a v := by
  obtain ⟨hheld, hk⟩ := hready
  obtain ⟨accept, hlook⟩ := hheld.looks
  rw [assign]
  refine .afterShift hs hlook (tok_ne hk Token.Kind.noConfusion) fun t ht hshift hlt => ?_
  dsimp only
  refine .afterPeek ht _ fun eq u hu hview heq => ?_
  have hupos : u.pos = t.pos := congrArg Snapshot.pos hview
  rw [hshift] at hview heq ⊢
  refine .ite (fun hkind => ?_) (fun hkind => ?_)
  · refine .afterShift hu (hview.symm ▸ heq) (tok_ne hkind Token.Kind.noConfusion) fun w hw hshift' hlt' => ?_
    refine (meets_assignValue ih hw hfuel (by omega) hk (.leaf .operator eq)).imp ?_
    intro exact node v h hlook hready
    refine h _ hready.1 ?_
    rw [hshift', hview]
    exact .found hlook hkind
  · refine (meets_missing hu .noEquals).bind ?_
    rintro op w hw ⟨hop, hcomplain⟩
    have hwpos : w.pos = u.pos := congrArg Snapshot.pos hcomplain
    refine (meets_assignValue ih hw hfuel (by omega) hk op).imp ?_
    intro exact node v h _ hlook hready
    refine h _ hready.1 ?_
    rw [hcomplain, hop, hview]
    exact .absent hlook hkind

theorem meets_body (ih : AllMeet setup fuel) (hs : Good setup s) (closers : KindSet)
    (hfuel : (Production.body closers).need setup.src.length s.pos ≤ fuel + 1) :
    Meets setup (body setup closers (fuel + 1)) s fun exact a v => Reads setup exact (.body closers) (view s) a v := by
  rw [body]
  refine .get ((meets_modify hs (f := fun s => { s with parens := 0 }) rfl rfl rfl).bind ?_)
  rintro _ t ht hview
  have hzero : view t = (view s).withParens 0 := hview
  refine .afterPeek ht _ fun tok u hu hview' hlook => ?_
  rw [hzero] at hview' hlook ⊢
  have hpos : u.pos = s.pos := congrArg Snapshot.pos hview'
  -- The parentheses around the body count again after it.
  have hafter (result : List Node × Bool) (w : State) (hw : Good setup w)
      (post : Prop → List Node × Bool → Snapshot → Prop)
      (h : ∀ exact, post exact result ((view w).withParens s.parens)) :
      Meets setup (do
        modify fun now => { now with parens := s.parens }
        return result) w post := by
    refine (meets_modify hw (f := fun now => { now with parens := s.parens }) rfl rfl rfl).bind ?_
    rintro _ x hx hview''
    refine .pure hx fun exact _ => ?_
    rw [hview'']
    exact h exact
  refine .ite (fun hk => ?_) (fun hline => .ite (fun hk => ?_) (fun hk => ?_))
  · refine (ih (.statements closers) u hu trivial
      (Production.need_of_rank hfuel (Nat.le_of_eq hpos.symm) (by simp [Production.rank]))).bind ?_
    rintro stmts w hw _
    refine hafter (stmts, true) w hw _ fun exact hstmts hlook _ => ?_
    rw [hview'] at hstmts
    exact .block hlook hk (hstmts trivial)
  · refine hafter ([], false) u hu _ fun exact hlook _ => ?_
    rw [hview']
    exact .noBody hlook hline hk
  · refine (ih (.inlineBody closers) u hu trivial
      (Production.need_of_rank hfuel (Nat.le_of_eq hpos.symm) (by simp [Production.rank]))).bind ?_
    rintro stmts w hw _
    refine hafter (stmts, false) w hw _ fun exact hstmts hlook _ => ?_
    rw [hview'] at hstmts
    exact .inlined hlook hline hk (hstmts trivial)

theorem meets_inlineBody (ih : AllMeet setup fuel) (hs : Good setup s) (closers : KindSet)
    (hfuel : (Production.inlineBody closers).need setup.src.length s.pos ≤ fuel + 1) :
    Meets setup (inlineBody setup closers (fuel + 1)) s fun exact a v =>
      Reads setup exact (.inlineBody closers) (view s) a v := by
  rw [inlineBody]
  refine (ih .statement s hs trivial
    (Production.need_of_rank hfuel (Nat.le_refl _) (by simp [Production.rank]))).bind ?_
  rintro first t ht hfirst
  have hle : s.pos ≤ t.pos := (hfirst trivial).progress.1.le
  refine .get ?_
  refine (ih (.inlineRest closers) t ht trivial
    (Production.need_of_rank hfuel hle (by simp [Production.rank]))).bind_later ?_
  rintro rest u hu hlater hrest
  cases rest with
  | some rest => exact .pure hu fun exact hrest hfirst => .several (hfirst trivial) (hrest trivial)
  | none =>
    have hsame := (hrest trivial).progress.1
    refine (meets_restore hu ht hlater hsame.parens_eq hsame.depth_eq).bind ?_
    rintro _ w hw hback
    refine .pure hw fun exact _ hrest hfirst => ?_
    rw [hback]
    exact .single (hfirst trivial) (hrest trivial)

theorem meets_inlineRest (ih : AllMeet setup fuel) (hs : Good setup s) (closers : KindSet)
    (hfuel : (Production.inlineRest closers).need setup.src.length s.pos ≤ fuel + 1) :
    Meets setup (inlineRest setup closers (fuel + 1)) s fun exact a v =>
      Reads setup exact (.inlineRest closers) (view s) a v := by
  rw [inlineRest]
  refine .afterPeek hs _ fun tok t ht hview hlook => ?_
  have hpos : t.pos = s.pos := congrArg Snapshot.pos hview
  rw [← hview] at hlook ⊢
  refine .ite (fun hk => .pure ht fun exact hlook => .restClosed hlook hk) (fun hcloser => ?_)
  have hcloser := Bool.eq_false_iff.mpr hcloser
  refine .ite (fun hk => .pure ht fun exact hlook => .restOpen hlook hcloser hk) (fun hk => ?_)
  have hk : tok.kind = .semicolon := not_not.mp hk
  refine .afterShift ht hlook (tok_ne hk Token.Kind.noConfusion) fun u hu hshift hlt => ?_
  refine .afterPeek hu _ fun next w hw hview' hnext => ?_
  have hltw : s.pos < w.pos := by
    have hwpos : w.pos = u.pos := congrArg Snapshot.pos hview'
    omega
  rw [hshift] at hview' hnext ⊢
  refine .ite (fun hclosed => .pure hw fun exact hnext hlook => ?_) (fun hopen => ?_)
  · rw [hview']
    exact .restClosedNext hlook hcloser hk hnext hclosed
  have hopen := Bool.eq_false_iff.mpr hopen
  refine .ite (fun hstart => .pure hw fun exact hnext hlook => ?_) (fun hstart => ?_)
  · rw [hview']
    exact .restOpenNext hlook hcloser hk hnext hopen (by simpa using hstart)
  · refine (ih .statement w hw trivial (Production.need_of_lt hfuel hltw hw.pos)).bind ?_
    rintro stmt x hx hstmt
    have hle : w.pos ≤ x.pos := (hstmt trivial).progress.1.le
    refine (ih (.inlineRest closers) x hx trivial
      (Production.need_of_lt hfuel (Nat.lt_of_lt_of_le hltw hle) hx.pos)).bind ?_
    rintro rest y hy _
    refine .pure hy fun exact hrest hstmt hnext hlook => ?_
    rw [hview'] at hstmt
    exact .restMore hlook hcloser hk hnext hopen (by simpa using hstart) (hstmt trivial) (hrest trivial)

theorem meets_functionDef (ih : AllMeet setup fuel) (hs : Good setup s) {tok : Token}
    (hready : (Production.functionDef tok).Ready setup False (view s))
    (hfuel : (Production.functionDef tok).need setup.src.length s.pos ≤ fuel + 1) :
    Meets setup (functionDef setup tok (fuel + 1)) s fun exact a v =>
      (Production.functionDef tok).Ready setup exact (view s) → Reads setup exact (.functionDef tok) (view s) a v := by
  obtain ⟨hheld, hk⟩ := hready
  obtain ⟨accept, hlook⟩ := hheld.looks
  have hne : tok.kind ≠ .eof := tok_ne hk Token.Kind.noConfusion
  rw [functionDef]
  refine .afterShift hs hlook hne fun t ht hshift hlt => ?_
  have hparamFuel : setup.src.length - t.pos < fuel := by
    have hbound := ht.pos
    have hneed := hfuel
    rw [Production.need] at hneed
    omega
  refine (meets_params ht hparamFuel _).bind ?_
  rintro list u hu hlist
  have hle := hlist.advances.le
  refine .get ((meets_reduce hu .params).bind ?_)
  rintro _ w hw hreduce
  have hwpos : w.pos = u.pos := congrArg Snapshot.pos hreduce
  refine (meets_colon hw).bind ?_
  rintro c x hx hc
  have hxle := (hc.advances Token.Kind.noConfusion).le
  have hbody : s.pos < x.pos := by
    change t.pos ≤ u.pos at hle
    change w.pos ≤ x.pos at hxle
    omega
  refine (ih (.body fnClosers) x hx trivial (Production.need_of_lt hfuel hbody hx.pos)).bind ?_
  rintro ⟨stmts, block⟩ y hy _
  refine (meets_closeBody hy _ block).bind ?_
  rintro node z hz _
  refine (meets_reduce hz .functionDef).bind ?_
  rintro _ v hv hleave
  refine .pure hv fun exact _ hclose hbody hc _ hlist hready => ?_
  rw [hshift] at hlist
  rw [hreduce] at hc
  rw [hleave]
  exact .functionDef hready.1 hk hlist hc (hbody trivial) hclose

/-- A colon, the body behind it and the block that the body is put into. What comes next has as much fuel as
any production has that starts behind `pos`. -/
theorem meets_block (ih : AllMeet setup fuel) (hs : Good setup s) {p : Production} {pos : Nat}
    (hfuel : p.need setup.src.length pos ≤ fuel + 1) (hlt : pos < s.pos) (closers : KindSet)
    {f : Node → List Node × Bool → Node → Parse Node} {post : Prop → Node → Snapshot → Prop}
    (h : ∀ c stmts block s₁ t, Good setup t → pos < t.pos →
      Meets setup (f c (stmts, block) (blockNode t.pos stmts)) t fun exact node v =>
        Colon setup exact (view s) c s₁ → Reads setup exact (.body closers) s₁ (stmts, block) (view t) →
          post exact node v) :
    Meets setup (do
      let c ← colon setup
      let read ← body setup closers fuel
      let node ← thenBlock read.1
      f c read node) s post := by
  refine (meets_colon hs).bind ?_
  rintro c t ht hc
  have hle : s.pos ≤ t.pos := (hc.advances Token.Kind.noConfusion).le
  have hltt : pos < t.pos := Nat.lt_of_lt_of_le hlt hle
  refine (ih (.body closers) t ht trivial (Production.need_of_lt hfuel hltt ht.pos)).bind ?_
  rintro ⟨stmts, block⟩ u hu hbody
  have hleu : t.pos ≤ u.pos := (hbody trivial).progress.1.le
  refine (meets_thenBlock hu stmts).bind ?_
  rintro node w hw ⟨rfl, hview⟩
  have hpos : w.pos = u.pos := congrArg Snapshot.pos hview
  have hltw : pos < w.pos := hpos ▸ Nat.lt_of_lt_of_le hltt hleu
  have hrest := h c stmts block (view t) w hw hltw
  rw [hview, hpos] at hrest
  exact hrest.imp fun exact node v hpost _ hbody hc => hpost hc (hbody trivial)

theorem meets_ifExpr (ih : AllMeet setup fuel) (hs : Good setup s) {tok : Token}
    (hready : (Production.ifExpr tok).Ready setup False (view s))
    (hfuel : (Production.ifExpr tok).need setup.src.length s.pos ≤ fuel + 1) :
    Meets setup (ifExpr setup tok (fuel + 1)) s fun exact a v =>
      (Production.ifExpr tok).Ready setup exact (view s) → Reads setup exact (.ifExpr tok) (view s) a v := by
  obtain ⟨hheld, hk⟩ := hready
  obtain ⟨accept, hlook⟩ := hheld.looks
  rw [ifExpr]
  refine .afterShift hs hlook (tok_ne hk Token.Kind.noConfusion) fun t ht hshift hlt => ?_
  refine (ih (.binary lowest false) t ht trivial (Production.need_of_lt hfuel hlt ht.pos)).bind ?_
  rintro condition u hu hcondition
  have hle : t.pos ≤ u.pos := (hcondition trivial).progress.1.le
  dsimp only
  refine meets_block ih hu hfuel (Nat.lt_of_lt_of_le hlt hle) ifClosers fun c stmts block w x hx hltx => ?_
  refine (ih (.branches _ block false) x hx trivial (Production.need_of_lt hfuel hltx hx.pos)).imp ?_
  intro exact node v hbranches hc hbody hcondition hready
  rw [hshift] at hcondition
  exact .ifExpr hready.1 hk (hcondition trivial) hc hbody (hbranches trivial)

theorem meets_branches (ih : AllMeet setup fuel) (hs : Good setup s) (node : Node) (block seenElse : Bool)
    (hfuel : (Production.branches node block seenElse).need setup.src.length s.pos ≤ fuel + 1) :
    Meets setup (branches setup node block seenElse (fuel + 1)) s fun exact a v =>
      Reads setup exact (.branches node block seenElse) (view s) a v := by
  rw [branches]
  refine .afterPeek hs (branchStart block seenElse) fun tok t ht hview hlook => ?_
  have hpos : t.pos = s.pos := congrArg Snapshot.pos hview
  rw [← hview] at hlook ⊢
  refine .ite (fun hk => ?_) (fun helsif => .ite (fun hk => ?_) (fun helse => ?_))
  · refine .afterShift ht hlook (tok_ne hk Token.Kind.noConfusion) fun u hu hshift hlt => ?_
    rw [hpos] at hlt
    refine (ih (.binary lowest false) u hu trivial (Production.need_of_lt hfuel hlt hu.pos)).bind ?_
    rintro condition w hw hcondition
    have hle : u.pos ≤ w.pos := (hcondition trivial).progress.1.le
    dsimp only
    refine meets_block ih hw hfuel (Nat.lt_of_lt_of_le hlt hle) ifClosers fun c stmts b x y hy hlty => ?_
    refine (ih (.branches _ (block || b) seenElse) y hy trivial (Production.need_of_lt hfuel hlty hy.pos)).imp ?_
    intro exact whole v hbranches hc hbody hcondition hlook
    rw [hshift] at hcondition
    exact .elsif hlook hk (hcondition trivial) hc hbody (hbranches trivial)
  · refine .afterShift ht hlook (tok_ne hk Token.Kind.noConfusion) fun u hu hshift hlt => ?_
    rw [hpos] at hlt
    dsimp only
    refine meets_block ih hu hfuel hlt fnClosers fun c stmts b x y hy hlty => ?_
    refine (ih (.branches _ (block || b) true) y hy trivial (Production.need_of_lt hfuel hlty hy.pos)).imp ?_
    intro exact whole v hbranches hc hbody hlook
    rw [hshift] at hc
    exact .otherwise hlook hk hc hbody (hbranches trivial)
  · refine (meets_closeBody ht node block).imp ?_
    intro exact whole v hclose hlook
    exact .endIf hlook helsif helse hclose

theorem meets_expression (ih : AllMeet setup fuel) (hs : Good setup s)
    (hfuel : Production.expression.need setup.src.length s.pos ≤ fuel + 1) :
    Meets setup (expression setup (fuel + 1)) s fun exact a v => Reads setup exact .expression (view s) a v := by
  rw [expression]
  refine (ih (.binary lowest true) s hs trivial
    (Production.need_of_rank hfuel (Nat.le_refl _) (by simp [Production.rank]))).bind ?_
  rintro left t ht hleft
  have hle : s.pos ≤ t.pos := (hleft trivial).progress.1.le
  refine .afterPeek ht _ fun tok u hu hview hlook => ?_
  have hpos : u.pos = t.pos := congrArg Snapshot.pos hview
  rw [← hview] at hlook ⊢
  refine .ite (fun hk => ?_) (fun hk => .pure hu fun exact hlook hleft => .alone (hleft trivial) hlook hk)
  have hready : (Production.stages (.branch .pipeExpr [left]) tok).Ready setup False (view u) :=
    ⟨⟨stageEnd, by decide, hlook⟩, hk⟩
  refine (ih (.stages (.branch .pipeExpr [left]) tok) u hu hready
    (Production.need_of_rank hfuel (hpos.symm ▸ hle) (by simp [Production.rank]))).imp ?_
  intro exact node v h hlook hleft
  exact .pipe (hleft trivial) hlook hk (h ⟨⟨stageEnd, by decide, hlook⟩, hk⟩)

theorem meets_stages (ih : AllMeet setup fuel) (hs : Good setup s) (node : Node) {tok : Token}
    (hready : (Production.stages node tok).Ready setup False (view s))
    (hfuel : (Production.stages node tok).need setup.src.length s.pos ≤ fuel + 1) :
    Meets setup (stages setup node tok (fuel + 1)) s fun exact a v =>
      (Production.stages node tok).Ready setup exact (view s) → Reads setup exact (.stages node tok) (view s) a v := by
  obtain ⟨hheld, hkind⟩ := hready
  obtain ⟨accept, hlook⟩ := hheld.looks
  have hne : tok.kind ≠ .eof := tok_ne hkind Token.Kind.noConfusion
  rw [stages]
  refine .afterShift hs hlook hne fun t ht hshift hlt => ?_
  refine (ih (.binary lowest true) t ht trivial (Production.need_of_lt hfuel hlt ht.pos)).bind ?_
  rintro value u hu hvalue
  have hule : t.pos ≤ u.pos := (hvalue trivial).progress.1.le
  refine .afterPeek hu _ fun next w hw hview hnext => ?_
  have hpos : w.pos = u.pos := congrArg Snapshot.pos hview
  have hltw : s.pos < w.pos := by omega
  rw [← hview] at hnext ⊢
  refine .ite (fun hk => ?_) (fun hk => .pure hw fun exact hnext hvalue hready => ?_)
  · have hready : (Production.stages ((node.push (.leaf .operator tok)).push value) next).Ready setup False (view w) :=
      ⟨⟨stageEnd, by decide, hnext⟩, hk⟩
    refine (ih (.stages ((node.push (.leaf .operator tok)).push value) next) w hw hready
      (Production.need_of_lt hfuel hltw hw.pos)).imp ?_
    intro exact whole v h hnext hvalue hready
    rw [hshift] at hvalue
    exact .stage hready.1 hkind (hvalue trivial) hnext hk (h ⟨⟨stageEnd, by decide, hnext⟩, hk⟩)
  · rw [hshift] at hvalue
    exact .lastStage hready.1 hkind (hvalue trivial) hnext hk

theorem meets_binary (ih : AllMeet setup fuel) (hs : Good setup s) (minPrec : Nat) (callable : Bool)
    (hfuel : (Production.binary minPrec callable).need setup.src.length s.pos ≤ fuel + 1) :
    Meets setup (binary setup minPrec callable (fuel + 1)) s fun exact a v =>
      Reads setup exact (.binary minPrec callable) (view s) a v := by
  rw [binary]
  refine .afterPeek hs _ fun tok t ht hview hlook => ?_
  have hpos : t.pos = s.pos := congrArg Snapshot.pos hview
  rw [← hview] at hlook ⊢
  have hready : (Production.operand tok callable).Ready setup False (view t) := ⟨exprStart, by decide, hlook⟩
  refine (ih (.operand tok callable) t ht hready
    (Production.need_of_rank hfuel (Nat.le_of_eq hpos.symm) (by simp [Production.rank]))).bind ?_
  rintro left u hu hleft
  have hule : t.pos ≤ u.pos := (hleft hready).progress.1.le
  refine (ih (.operators minPrec left) u hu trivial
    (Production.need_of_rank hfuel (hpos ▸ hule) (by simp [Production.rank]))).bind ?_
  rintro more w hw _
  cases more with
  | some node =>
    exact .pure hw fun exact hmore hleft hlook =>
      .operation hlook (hleft ⟨exprStart, by decide, hlook⟩) (hmore trivial)
  | none =>
    refine .ite (fun hlone => ?_) (fun hlone => .pure hw fun exact hmore hleft hlook => ?_)
    · refine (meets_callOrIdentifier hw left).imp ?_
      rintro exact node v ⟨rfl, rfl⟩ hmore hleft hlook
      exact .lone hlook (hleft ⟨exprStart, by decide, hlook⟩) (hmore trivial) hlone
    · exact .justOperand hlook (hleft ⟨exprStart, by decide, hlook⟩) (hmore trivial)
        (Bool.eq_false_iff.mpr hlone)

theorem meets_operators (ih : AllMeet setup fuel) (hs : Good setup s) (minPrec : Nat) (left : Node)
    (hfuel : (Production.operators minPrec left).need setup.src.length s.pos ≤ fuel + 1) :
    Meets setup (operators setup minPrec left (fuel + 1)) s fun exact a v =>
      Reads setup exact (.operators minPrec left) (view s) a v := by
  rw [operators]
  refine .afterPeek hs _ fun tok t ht hview hlook => ?_
  have hpos : t.pos = s.pos := congrArg Snapshot.pos hview
  rw [← hview] at hlook ⊢
  refine .ite (fun hprec => .pure ht fun exact hlook => .noOperator hlook hprec) (fun hprec => ?_)
  have hne : tok.kind ≠ .eof := by
    intro heof
    rw [heof] at hprec
    exact hprec (.inl rfl)
  refine .afterShift ht hlook hne fun u hu hshift hlt => ?_
  rw [hpos] at hlt
  refine (ih (.binary (precedence tok.kind + 1) false) u hu trivial
    (Production.need_of_lt hfuel hlt hu.pos)).bind ?_
  rintro right w hw hright
  have hwle : u.pos ≤ w.pos := (hright trivial).progress.1.le
  refine (ih (.operators minPrec (.branch (operatorNode (precedence tok.kind)) [left, .leaf .operator tok, right])) w hw
    trivial (Production.need_of_lt hfuel (Nat.lt_of_lt_of_le hlt hwle) hw.pos)).bind ?_
  rintro more x hx _
  refine .pure hx fun exact hmore hright hlook => ?_
  rw [hshift] at hright
  exact .operator hlook hprec (hright trivial) (hmore trivial)

theorem meets_operand (ih : AllMeet setup fuel) (hs : Good setup s) {tok : Token} (callable : Bool)
    (hready : (Production.operand tok callable).Ready setup False (view s))
    (hfuel : (Production.operand tok callable).need setup.src.length s.pos ≤ fuel + 1) :
    Meets setup (operand setup tok callable (fuel + 1)) s fun exact a v =>
      (Production.operand tok callable).Ready setup exact (view s) →
        Reads setup exact (.operand tok callable) (view s) a v := by
  rw [operand]
  refine .get (.ite (fun hdepth => ?_) (fun hdepth => ?_))
  · refine (meets_skipStatement hs _).imp ?_
    rintro exact node v ⟨rfl, rfl⟩ hready
    exact .tooDeep hready hdepth
  · refine (meets_modify hs (f := fun now => { now with depth := s.depth + 1 }) rfl rfl rfl).bind ?_
    rintro _ t ht hview
    have hdeep : view t = (view s).deepen := hview
    have hpos : t.pos = s.pos := congrArg Snapshot.pos hdeep
    have hready' : (Production.operandBody tok callable).Ready setup False (view t) := by
      rw [hdeep]
      exact hready
    refine (ih (.operandBody tok callable) t ht hready'
      (Production.need_of_rank hfuel (Nat.le_of_eq hpos.symm) (by simp [Production.rank]))).bind ?_
    rintro node u hu _
    refine (meets_modify hu (f := fun now => { now with depth := s.depth }) rfl rfl rfl).bind ?_
    rintro _ w hw hview'
    refine .pure hw fun exact _ hbody _ hready => ?_
    rw [hdeep] at hbody
    rw [hview']
    exact .operand hready hdepth (hbody hready)

/-- What is not the start of an operand is refused. -/
theorem meets_noOperand (hs : Good setup s) {tok : Token} (callable : Bool)
    (hheld : Held setup False (view s) tok) (hstart : exprStart.has tok.kind = false) :
    Meets setup (if isBoundary tok.kind then missing setup .noExpression else unexpected setup tok) s fun exact a v =>
      Held setup exact (view s) tok → Reads setup exact (.operandBody tok callable) (view s) a v := by
  refine .ite (fun hk => ?_) (fun hk => ?_)
  · refine (meets_missing hs _).imp ?_
    rintro exact node v ⟨rfl, rfl⟩ hheld
    exact .noOperand hheld hk
  · obtain ⟨accept, hlook⟩ := hheld.looks
    have hne : tok.kind ≠ .eof := by
      intro heof
      rw [heof] at hk
      exact hk rfl
    refine (meets_unexpected hs (hlook.stop_le hne)).imp ?_
    rintro exact node v ⟨rfl, rfl⟩ hheld
    exact .badOperand hheld hstart (Bool.eq_false_iff.mpr hk)

theorem meets_operandBody (ih : AllMeet setup fuel) (hs : Good setup s) {tok : Token} (callable : Bool)
    (hready : (Production.operandBody tok callable).Ready setup False (view s))
    (hfuel : (Production.operandBody tok callable).need setup.src.length s.pos ≤ fuel + 1) :
    Meets setup (operandBody setup tok callable (fuel + 1)) s fun exact a v =>
      (Production.operandBody tok callable).Ready setup exact (view s) →
        Reads setup exact (.operandBody tok callable) (view s) a v := by
  have hheld : Held setup False (view s) tok := hready
  obtain ⟨accept, hlook⟩ := hheld.looks
  have hliteral {kind : Kind} (hk : literalKind? tok.kind = some kind) :
      Meets setup (do
        shift tok
        return .leaf kind tok) s fun exact a v => Held setup exact (view s) tok →
          Reads setup exact (.operandBody tok callable) (view s) a v := by
    refine .afterShift hs hlook (literalKind?_ne_eof hk) fun t ht hshift _ => .pure ht fun exact hheld => ?_
    rw [hshift]
    exact .literal hheld hk
  rw [operandBody]
  split
  · rename_i hk
    exact hliteral (by rw [hk]; rfl)
  · rename_i hk
    exact hliteral (by rw [hk]; rfl)
  · rename_i hk
    exact hliteral (by rw [hk]; rfl)
  · rename_i hk
    refine .afterShift hs hlook (tok_ne hk Token.Kind.noConfusion) fun t ht hshift hlt => ?_
    refine (ih (.stringPieces (tok.text.headD 0).toNat { kind := .string, span := tok.span }) t ht trivial
      (Production.need_of_lt hfuel hlt ht.pos)).imp ?_
    intro exact node v h hheld
    rw [hshift] at h
    exact .string hheld hk (h trivial)
  · rename_i hk
    have hne : tok.kind ≠ .eof := tok_ne hk Token.Kind.noConfusion
    have hbound : tok.start ≤ setup.src.length := Nat.le_of_lt (Nat.lt_of_lt_of_le (hlook.stands hne).lt (hlook.stop_le hne))
    refine (meets_moveTo hs hbound).bind ?_
    rintro _ t ht hmove
    have htpos : t.pos = tok.start := congrArg Snapshot.pos hmove
    have hle : s.pos ≤ t.pos := htpos ▸ hlook.start_le hne
    refine (ih (.wordPieces { kind := .word, span := .point tok.start }) t ht trivial
      (Production.need_of_rank hfuel hle (by simp [Production.rank]))).imp ?_
    intro exact node v h _ hheld
    rw [hmove] at h
    exact .word hheld hk (h trivial)
  · rename_i hk
    refine .afterShift hs hlook (tok_ne hk Token.Kind.noConfusion) fun t ht hshift hlt => ?_
    cases callable with
    | true =>
      refine (ih (.call (.leaf .identifier tok)) t ht trivial (Production.need_of_lt hfuel hlt ht.pos)).imp ?_
      intro exact node v h hheld
      rw [hshift] at h
      exact .callee hheld hk (h trivial)
    | false =>
      refine .pure ht fun exact hheld => ?_
      rw [hshift]
      exact .name hheld hk
  · rename_i hk
    refine (meets_dotGet hs hheld (tok_ne hk Token.Kind.noConfusion)).imp ?_
    intro exact node v h hheld
    exact .dotGet hheld hk h
  · rename_i hk
    refine .afterShift hs hlook (tok_ne hk Token.Kind.noConfusion) fun t ht hshift hlt => ?_
    refine (ih (.parenBody tok.span) t ht trivial (Production.need_of_lt hfuel hlt ht.pos)).imp ?_
    intro exact node v h hheld
    rw [hshift] at h
    exact .group hheld hk (h trivial)
  · rename_i hk
    refine (ih (.functionDef tok) s hs ⟨hheld, hk⟩
      (Production.need_of_rank hfuel (Nat.le_refl _) (by simp [Production.rank]))).imp ?_
    intro exact node v h hheld
    exact .function hk (h ⟨hheld, hk⟩)
  · rename_i hk
    refine (ih (.ifExpr tok) s hs ⟨hheld, hk⟩
      (Production.need_of_rank hfuel (Nat.le_refl _) (by simp [Production.rank]))).imp ?_
    intro exact node v h hheld
    exact .conditional hk (h ⟨hheld, hk⟩)
  · refine meets_noOperand hs callable hheld ?_
    cases hk : tok.kind <;> first | rfl | simp_all

theorem meets_call (ih : AllMeet setup fuel) (hs : Good setup s) (id : Node)
    (hfuel : (Production.call id).need setup.src.length s.pos ≤ fuel + 1) :
    Meets setup (call setup id (fuel + 1)) s fun exact a v => Reads setup exact (.call id) (view s) a v := by
  rw [call]
  refine .ite (fun hglued => .pure hs fun exact => .glued hglued) (fun hglued => ?_)
  have hglued : glued setup id = false := Bool.eq_false_iff.mpr hglued
  refine .afterPeek hs _ fun tok t ht hview hlook => ?_
  have hpos : t.pos = s.pos := congrArg Snapshot.pos hview
  rw [← hview] at hlook ⊢
  refine .ite (fun hk => ?_) (fun hk => ?_)
  · have hready : (Production.args (.branch .functionCall [id]) tok).Ready setup False (view t) :=
      ⟨⟨argStart ∪ binaryOps ∪ stageEnd, by decide, hlook⟩, hk⟩
    refine (ih (.args (.branch .functionCall [id]) tok) t ht hready
      (Production.need_of_rank hfuel (Nat.le_of_eq hpos.symm) (by simp [Production.rank]))).imp ?_
    intro exact node v h hlook
    exact .withArgs hglued hlook hk (h ⟨⟨argStart ∪ binaryOps ∪ stageEnd, by decide, hlook⟩, hk⟩)
  · exact .pure ht fun exact hlook => .noArgs hglued hlook (Bool.eq_false_iff.mpr hk)

theorem meets_args (ih : AllMeet setup fuel) (hs : Good setup s) (node : Node) {tok : Token}
    (hready : (Production.args node tok).Ready setup False (view s))
    (hfuel : (Production.args node tok).need setup.src.length s.pos ≤ fuel + 1) :
    Meets setup (args setup node tok (fuel + 1)) s fun exact a v =>
      (Production.args node tok).Ready setup exact (view s) → Reads setup exact (.args node tok) (view s) a v := by
  rw [args]
  refine (ih (.arg tok) s hs hready
    (Production.need_of_rank hfuel (Nat.le_refl _) (by simp [Production.rank]))).bind ?_
  rintro a t ht harg
  have hlt : s.pos < t.pos := (harg hready).progress.2 hready.2
  refine .afterPeek ht _ fun next u hu hview hlook => ?_
  have hupos : u.pos = t.pos := congrArg Snapshot.pos hview
  rw [← hview] at hlook ⊢
  refine .ite (fun hk => ?_) (fun hk => .pure hu fun exact hlook harg hready =>
    .lastArg (harg hready) hlook (Bool.eq_false_iff.mpr hk))
  have hready' : (Production.args (node.push a) next).Ready setup False (view u) :=
    ⟨⟨argStart ∪ stageEnd, by decide, hlook⟩, hk⟩
  refine (ih (.args (node.push a) next) u hu hready' (Production.need_of_lt hfuel (hupos ▸ hlt) hu.pos)).imp ?_
  intro exact whole v h hlook harg hready
  exact .moreArgs (harg hready) hlook hk (h ⟨⟨argStart ∪ stageEnd, by decide, hlook⟩, hk⟩)

theorem meets_arg (ih : AllMeet setup fuel) (hs : Good setup s) {tok : Token}
    (hready : (Production.arg tok).Ready setup False (view s))
    (hfuel : (Production.arg tok).need setup.src.length s.pos ≤ fuel + 1) :
    Meets setup (arg setup tok (fuel + 1)) s fun exact a v =>
      (Production.arg tok).Ready setup exact (view s) → Reads setup exact (.arg tok) (view s) a v := by
  obtain ⟨hheld, -⟩ := hready
  obtain ⟨accept, hlook⟩ := hheld.looks
  rw [arg]
  refine .ite (fun hk => ?_) (fun hk => ?_)
  · refine (ih (.operand tok false) s hs hheld
      (Production.need_of_rank hfuel (Nat.le_refl _) (by simp [Production.rank]))).bind ?_
    rintro value t ht _
    exact .pure ht fun exact hvalue hready => .positional hk (hvalue hready.1)
  · have hk : tok.kind = .argName := not_not.mp hk
    have hne : tok.kind ≠ .eof := tok_ne hk Token.Kind.noConfusion
    refine .afterShift hs hlook hne fun t ht hshift hlt => ?_
    refine .afterPeek ht _ fun next u hu hview hnext => ?_
    have hltu : s.pos < u.pos := Nat.lt_of_lt_of_le hlt (Nat.le_of_eq (congrArg Snapshot.pos hview).symm)
    rw [← hview] at hnext hshift ⊢
    have hupos : u.pos = tok.stop := congrArg Snapshot.pos hshift
    refine .get ?_
    rw [hupos]
    refine .ite (fun hbare => ?_) (fun hvalue => ?_)
    · refine (meets_missing hu _).bind ?_
      rintro bad w hw ⟨hbad, hcomplain⟩
      refine .pure hw fun exact _ hnext hready => ?_
      rw [hbad, hcomplain, hshift]
      rw [hshift] at hnext
      exact .noValue hready.1 hk hnext hbare
    · have hready' : (Production.operand next false).Ready setup False (view u) :=
        ⟨argStart ∪ stageEnd, by decide, hnext⟩
      refine (ih (.operand next false) u hu hready'
        (Production.need_of_lt hfuel hltu hu.pos)).bind ?_
      rintro value w hw _
      refine .pure hw fun exact hoperand hnext hready => ?_
      rw [hshift] at hnext hoperand
      exact .named hready.1 hk hnext hvalue (hoperand ⟨argStart ∪ stageEnd, by decide, hnext⟩)

theorem meets_parenJunk (hs : Good setup s) {fuel : Nat} (hfuel : setup.src.length - s.pos < fuel) (node : Node) :
    Meets setup (parenJunk setup node fuel) s fun exact all v => Junk setup exact (view s) node all v := by
  induction fuel generalizing s node with
  | zero => omega
  | succ fuel ih =>
    rw [parenJunk]
    refine .afterPeek hs _ fun tok t ht hview hlook => ?_
    have hpos : t.pos = s.pos := congrArg Snapshot.pos hview
    rw [← hview] at hlook ⊢
    refine .get (.ite (fun hends => .pure ht fun exact hlook => .done hlook hends) (fun hends => ?_))
    have hlt := (view t).lt_skip (.unexpected tok) (hlook.skipBlank_lt fun heof => hends (.inr (.inl heof)))
    refine (meets_skipStatement ht _).bind ?_
    rintro junk u hu ⟨hjunk, hskip⟩
    have hupos : u.pos = ((view t).skip setup (.unexpected tok)).pos := congrArg Snapshot.pos hskip
    have hlt : t.pos < ((view t).skip setup (.unexpected tok)).pos := hlt
    have hbound := hu.pos
    refine (ih hu (by omega) _).imp ?_
    intro exact all v hrest _ hlook
    rw [hskip, hjunk] at hrest
    exact .more hlook hends hrest

theorem meets_leave (hs : Good setup s) (node : Node) :
    Meets setup (do
      modify fun s => { s with parens := s.parens - 1 }
      return node : Parse Node) s fun _ node' v => node' = node ∧ v = (view s).leave := by
  refine (meets_modify hs (f := fun s => { s with parens := s.parens - 1 }) rfl rfl rfl).bind ?_
  rintro _ t ht hleave
  exact .pure ht fun _ _ => ⟨rfl, hleave⟩

/-- The closing parenthesis comes last, whatever stands before it. -/
theorem meets_closeParen (hs : Good setup s) (inner : Node) :
    Meets setup (do
      let tok ← peek setup (.of [.closeParen])
      let node ←
        if tok.kind = .closeParen then do
          shift tok
          pure { inner with span := { inner.span with stop := tok.stop } }
        else do
          pure (inner.push (← missing setup .noCloseParen))
      modify fun s => { s with parens := s.parens - 1 }
      return node) s fun exact node v =>
        ∃ t, CloseParen setup exact (view s) inner node t ∧ v = t.leave := by
  refine .afterPeek hs _ fun tok t ht hview hlook => ?_
  rw [← hview] at hlook ⊢
  refine .ite (fun hk => ?_) (fun hk => ?_)
  · refine .afterShift ht hlook (tok_ne hk Token.Kind.noConfusion) fun u hu hshift _ => ?_
    refine (meets_leave hu _).imp ?_
    rintro exact node v ⟨rfl, rfl⟩ hlook
    refine ⟨view u, ?_, rfl⟩
    rw [hshift]
    exact .closed hlook hk
  · refine (meets_missing ht _).bind ?_
    rintro bad u hu ⟨hbad, hcomplain⟩
    refine (meets_leave hu _).imp ?_
    rintro exact node v ⟨rfl, rfl⟩ _ hlook
    refine ⟨view u, ?_, rfl⟩
    rw [hcomplain, hbad]
    exact .missing hlook hk

theorem meets_parenBody (ih : AllMeet setup fuel) (hs : Good setup s) (opening : Span)
    (hfuel : (Production.parenBody opening).need setup.src.length s.pos ≤ fuel + 1) :
    Meets setup (parenBody setup opening (fuel + 1)) s fun exact a v =>
      Reads setup exact (.parenBody opening) (view s) a v := by
  rw [parenBody]
  refine (meets_modify hs (f := fun s => { s with parens := s.parens + 1 }) rfl rfl rfl).bind ?_
  rintro _ t ht henter
  have henter : view t = (view s).enter := henter
  dsimp only
  refine .afterPeek ht _ fun tok u hu hview hlook => ?_
  rw [henter] at hview hlook ⊢
  have hupos : u.pos = s.pos := congrArg Snapshot.pos hview
  refine .ite (fun hk => ?_) (fun hk => ?_)
  · refine (meets_closeParen hu _).imp ?_
    rintro exact node v ⟨x, hx, rfl⟩ hlook _
    rw [hview] at hx
    exact .emptyGroup hlook hk hx
  · refine (ih .expression u hu trivial
      (Production.need_of_rank hfuel (Nat.le_of_eq hupos.symm) (by simp [Production.rank]))).bind ?_
    rintro value w hw hvalue
    have hle : u.pos ≤ w.pos := (hvalue trivial).progress.1.le
    have hrank : (Production.parenBody opening).rank = 7 := rfl
    rw [Production.need, hrank] at hfuel
    refine (meets_parenJunk hw (by omega) _).bind ?_
    rintro inner x hx _
    refine (meets_closeParen hx inner).imp ?_
    rintro exact node v ⟨y, hy, rfl⟩ hjunk hvalue hlook _
    rw [hview] at hvalue
    exact .fullGroup hlook hk (hvalue trivial) hjunk hy

/-- A piece that is no text is read before what follows it. -/
theorem meets_afterPiece (ih : AllMeet setup fuel) (hs : Good setup s) {p : Production} {tok : Token}
    (hfuel : p.need setup.src.length s.pos ≤ fuel + 1) (hrank : 1 < p.rank)
    (hready : (Production.piece tok).Ready setup False (view s)) {f : Node → Parse Node}
    {post : Prop → Node → Snapshot → Prop}
    (h : ∀ part t, Good setup t → s.pos < t.pos → Meets setup (f part) t fun exact node v =>
      Reads setup exact (.piece tok) (view s) part (view t) → post exact node v) :
    Meets setup (piece setup tok fuel >>= f) s post := by
  refine (ih (.piece tok) s hs hready (Production.need_of_rank hfuel (Nat.le_refl _) hrank)).bind ?_
  rintro part t ht hpart
  exact (h part t ht (hpart hready).progress.2).imp fun exact node v hpost hpart => hpost (hpart hready)

theorem meets_stringPieces (ih : AllMeet setup fuel) (hs : Good setup s) (quote : Nat) (node : Node)
    (hfuel : (Production.stringPieces quote node).need setup.src.length s.pos ≤ fuel + 1) :
    Meets setup (stringPieces setup quote node (fuel + 1)) s fun exact a v =>
      Reads setup exact (.stringPieces quote node) (view s) a v := by
  rw [stringPieces]
  refine .get ?_
  dsimp only
  have hstop : (Token.stringPiece setup.src s.pos quote).kind ≠ .eof →
      s.pos < (Token.stringPiece setup.src s.pos quote).stop ∧
        (Token.stringPiece setup.src s.pos quote).stop ≤ setup.src.length := stringPiece_stop
  rcases Token.stringPiece_cases setup.src s.pos quote with ⟨h, hover⟩ | ⟨width, h, hwidth, hle⟩ | hpiece
  · have hk : (Token.stringPiece setup.src s.pos quote).kind = .eof := congrArg Token.kind h
    rw [hk]
    refine (meets_complain hs _ _).bind ?_
    rintro bad t ht ⟨hbad, hcomplain⟩
    refine (meets_moveTo ht (Nat.le_refl _)).bind ?_
    rintro _ u hu hmove
    refine .pure hu fun exact _ _ => ?_
    rw [hmove, hcomplain, hbad]
    exact .unterminated hs.pos hk
  · have hk : (Token.stringPiece setup.src s.pos quote).kind = .quote := congrArg Token.kind h
    rw [hk]
    refine (meets_advance hs (hstop (tok_ne hk Token.Kind.noConfusion)).2).bind ?_
    rintro _ t ht hadvance
    refine .pure ht fun exact _ => ?_
    rw [hadvance]
    exact .closeQuote hk
  · have hready (hk : (Token.stringPiece setup.src s.pos quote).kind ≠ .fragment) :
        Meets setup (do
          let node := node.push (← piece setup (Token.stringPiece setup.src s.pos quote) fuel)
          stringPieces setup quote node fuel) s fun exact a v =>
            Reads setup exact (.stringPieces quote node) (view s) a v := by
      refine meets_afterPiece ih hs hfuel (Nat.le_refl 2) ⟨hpiece, hk⟩ fun part t ht hlt => ?_
      refine (ih (.stringPieces quote (node.push part)) t ht trivial (Production.need_of_lt hfuel hlt ht.pos)).imp ?_
      exact fun exact whole v h hpart => .stringPart hpart (h trivial)
    have hkind := hpiece.kind_mem
    simp only [List.mem_cons, List.not_mem_nil, or_false] at hkind
    rcases hkind with hk | hk | hk | hk
    · have hstop := hstop (tok_ne hk Token.Kind.noConfusion)
      rw [hk]
      refine (meets_advance hs hstop.2).bind ?_
      rintro _ t ht hadvance
      have htpos : t.pos = (Token.stringPiece setup.src s.pos quote).stop := congrArg Snapshot.pos hadvance
      refine (ih (.stringPieces quote (node.push (.leaf .stringFragment (Token.stringPiece setup.src s.pos quote)))) t ht
        trivial (Production.need_of_lt hfuel (htpos ▸ hstop.1) ht.pos)).imp ?_
      intro exact whole v h _
      rw [hadvance] at h
      exact .stringText hk (h trivial)
    all_goals
      have hready := hready (tok_ne hk Token.Kind.noConfusion)
      rw [hk]
      exact hready

theorem meets_wordPieces (ih : AllMeet setup fuel) (hs : Good setup s) (node : Node)
    (hfuel : (Production.wordPieces node).need setup.src.length s.pos ≤ fuel + 1) :
    Meets setup (wordPieces setup node (fuel + 1)) s fun exact a v =>
      Reads setup exact (.wordPieces node) (view s) a v := by
  rw [wordPieces]
  refine .get ?_
  dsimp only
  rcases Token.wordPiece_cases setup.src s.pos with h | hpiece
  · have hk : (Token.wordPiece setup.src s.pos).kind = .fragmentEnd := congrArg Token.kind h
    rw [hk]
    exact .pure hs fun exact => .endWord hk
  · have hready (hk : (Token.wordPiece setup.src s.pos).kind ≠ .fragment) :
        Meets setup (do
          let node := node.push (← piece setup (Token.wordPiece setup.src s.pos) fuel)
          wordPieces setup node fuel) s fun exact a v => Reads setup exact (.wordPieces node) (view s) a v := by
      refine meets_afterPiece ih hs hfuel (Nat.le_refl 2) ⟨hpiece, hk⟩ fun part t ht hlt => ?_
      refine (ih (.wordPieces (node.push part)) t ht trivial (Production.need_of_lt hfuel hlt ht.pos)).imp ?_
      exact fun exact whole v h hpart => .wordPart hpart (h trivial)
    have hkind := hpiece.kind_mem
    simp only [List.mem_cons, List.not_mem_nil, or_false] at hkind
    rcases hkind with hk | hk | hk | hk
    · rw [hk]
      refine (meets_advance hs hpiece.le).bind ?_
      rintro _ t ht hadvance
      have htpos : t.pos = (Token.wordPiece setup.src s.pos).stop := congrArg Snapshot.pos hadvance
      refine (ih (.wordPieces (node.push (.leaf .wordFragment (Token.wordPiece setup.src s.pos)))) t ht
        trivial (Production.need_of_lt hfuel (htpos ▸ hpiece.lt) ht.pos)).imp ?_
      intro exact whole v h _
      rw [hadvance] at h
      exact .wordText hk (h trivial)
    all_goals
      have hready := hready (tok_ne hk Token.Kind.noConfusion)
      rw [hk]
      exact hready

theorem meets_piece (ih : AllMeet setup fuel) (hs : Good setup s) {tok : Token}
    (hready : (Production.piece tok).Ready setup False (view s))
    (hfuel : (Production.piece tok).need setup.src.length s.pos ≤ fuel + 1) :
    Meets setup (piece setup tok (fuel + 1)) s fun exact a v => Reads setup exact (.piece tok) (view s) a v := by
  obtain ⟨hpiece, hfragment⟩ := hready
  rw [piece]
  refine (meets_advance hs hpiece.le).bind ?_
  rintro _ t ht hadvance
  have htpos : t.pos = tok.stop := congrArg Snapshot.pos hadvance
  have hkind := hpiece.kind_mem
  simp only [List.mem_cons, List.not_mem_nil, or_false] at hkind
  rcases hkind with hk | hk | hk | hk
  · exact absurd hk hfragment
  · rw [hk]
    refine .pure ht fun exact _ => ?_
    rw [hadvance]
    exact .escape hpiece hk
  · rw [hk]
    refine .pure ht fun exact _ => ?_
    rw [hadvance]
    exact .interpolatedName hpiece hk
  · rw [hk]
    refine (ih (.parenBody ⟨tok.start + 1, tok.stop⟩) t ht trivial
      (Production.need_of_lt hfuel (htpos ▸ hpiece.lt) ht.pos)).bind ?_
    rintro paren u hu _
    refine .pure hu fun exact hparen _ => ?_
    rw [hadvance] at hparen
    exact .interpolated hpiece hk (hparen trivial)

end

/-! ## All productions -/

theorem Production.one_le_rank (p : Production) : 1 ≤ p.rank := by
  cases p <;> simp [rank]

/-- With enough fuel every production reads what the grammar lets it read. -/
theorem allMeet (setup : Setup) (fuel : Nat) : AllMeet setup fuel := by
  induction fuel with
  | zero =>
    intro p s _ _ hfuel
    have hrank := p.one_le_rank
    rw [Production.need] at hfuel
    omega
  | succ fuel ih =>
    intro p s hs hready hfuel
    have hplain {x : Parse p.Answer} {post : Prop → p.Answer → Snapshot → Prop} (h : Meets setup x s post) :
        Meets setup x s fun exact a v => p.Ready setup exact (view s) → post exact a v :=
      h.imp fun exact a v hpost _ => hpost
    cases p with
    | statements stop => exact hplain (meets_statements ih hs stop hfuel)
    | statement => exact hplain (meets_statement ih hs hfuel)
    | assign tok => exact meets_assign ih hs hready hfuel
    | body closers => exact hplain (meets_body ih hs closers hfuel)
    | inlineBody closers => exact hplain (meets_inlineBody ih hs closers hfuel)
    | inlineRest closers => exact hplain (meets_inlineRest ih hs closers hfuel)
    | functionDef tok => exact meets_functionDef ih hs hready hfuel
    | ifExpr tok => exact meets_ifExpr ih hs hready hfuel
    | branches node block seenElse => exact hplain (meets_branches ih hs node block seenElse hfuel)
    | expression => exact hplain (meets_expression ih hs hfuel)
    | stages node tok => exact meets_stages ih hs node hready hfuel
    | binary minPrec callable => exact hplain (meets_binary ih hs minPrec callable hfuel)
    | operators minPrec left => exact hplain (meets_operators ih hs minPrec left hfuel)
    | operand tok callable => exact meets_operand ih hs callable hready hfuel
    | operandBody tok callable => exact meets_operandBody ih hs callable hready hfuel
    | call id => exact hplain (meets_call ih hs id hfuel)
    | args node tok => exact meets_args ih hs node hready hfuel
    | arg tok => exact meets_arg ih hs hready hfuel
    | parenBody opening => exact hplain (meets_parenBody ih hs opening hfuel)
    | stringPieces quote node => exact hplain (meets_stringPieces ih hs quote node hfuel)
    | wordPieces node => exact hplain (meets_wordPieces ih hs node hfuel)
    | piece tok => exact hplain (meets_piece ih hs hready hfuel)

/-! ## Parses -/

/-- The snapshot before anything is read. -/
def Snapshot.origin : Snapshot := ⟨0, .start, 0, 0, [], false, [], 0⟩

/-- Where the parse stopped, if it did before the end: one error node for the rest. -/
def unread (setup : Setup) (t : Snapshot) : List Node :=
  if t.halted = true ∧ Token.skipBlank setup.src t.pos false < setup.src.length then
    [faultNode setup .stopped ⟨Token.skipBlank setup.src t.pos false, setup.src.length⟩]
  else []

def wholeTree (setup : Setup) (stmts : List Node) (t : Snapshot) : Node :=
  { kind := .program, span := ⟨0, setup.src.length⟩, children := stmts ++ unread setup t }

/-- A parse read some statements, up to a snapshot. -/
structure Outcome (setup : Setup) (exact : Prop) (stmts : List Node) (t : Snapshot) : Prop where
  reads : Reads setup exact (.statements .empty) .origin stmts t
  tree_eq : (parse setup).tree = wholeTree setup stmts t
  faults_eq : (parse setup).faults = t.faults
  tokens_eq : (parse setup).tokens = t.consumed.reverse
  names_eq : (parse setup).scope.names = t.names

theorem view_start (setup : Setup) : view (.start setup) = .origin :=
  congrArg (Snapshot.mk 0 · 0 0 [] false [] 0) (Scope.Context.names_new setup.hasher)

theorem good_start (setup : Setup) : Good setup (.start setup) := by
  refine ⟨Nat.zero_le _, .new setup.hasher, fun query tok h => ?_⟩
  change (∅ : Std.HashMap Token.Query Token)[query]? = some tok at h
  rw [Std.HashMap.getElem?_empty] at h
  cases h

/-- A whole program is the statements that are read and what is left when the parse stops. -/
theorem meets_program (setup : Setup) :
    Meets setup (program setup) (.start setup) fun exact node v =>
      ∃ stmts t, Reads setup exact (.statements .empty) .origin stmts t ∧ node = wholeTree setup stmts t ∧
        v.faults = t.faults ∧ v.consumed = t.consumed ∧ v.names = t.names ∧ v.parens = t.parens ∧ v.depth = t.depth := by
  have hfuel : (Production.statements .empty).need setup.src.length (State.start setup).pos ≤
      fuelFor setup.src.length := by
    change 16 * (setup.src.length - 0) + 8 ≤ 16 * (setup.src.length + 2)
    omega
  rw [program]
  refine (allMeet setup (fuelFor setup.src.length) (.statements .empty) (.start setup) (good_start setup)
    trivial hfuel).bind ?_
  rintro stmts s hs -
  rw [view_start]
  refine .get ?_
  dsimp only
  refine .ite (fun hstopped => ?_) (fun hstopped => .pure hs fun exact hreads => ?_)
  · refine (meets_moveTo hs (Nat.le_refl _)).bind ?_
    rintro _ t ht hmove
    refine .pure ht fun exact _ hreads => ⟨stmts, view s, hreads trivial, ?_, ?_⟩
    · have hunread : unread setup (view s) =
          [faultNode setup .stopped ⟨Token.skipBlank setup.src s.pos false, setup.src.length⟩] := if_pos hstopped
      rw [wholeTree, hunread]
      rfl
    · rw [hmove]
      exact ⟨rfl, rfl, rfl, rfl, rfl⟩
  · refine ⟨stmts, view s, hreads trivial, ?_, rfl, rfl, rfl, rfl, rfl⟩
    have hunread : unread setup (view s) = [] := if_neg hstopped
    rw [wholeTree, hunread]

/-- What a parse answers is what the grammar reads. Its looks are exact if nothing is remembered, and
also if scopes are kept and no fingerprints of them collide. -/
theorem parse_outcome (setup : Setup) (exact : Prop)
    (h : exact → setup.policy.memoize = true →
      setup.policy.keepScopes = true ∧ (parse setup).scope.arena.CollisionFree setup.hasher) :
    ∃ stmts t, Outcome setup exact stmts t := by
  obtain ⟨stmts, t, hreads, htree, hfaults, hconsumed, hnames, -⟩ := (meets_program setup).post exact h
  exact ⟨stmts, t, hreads, htree, hfaults, congrArg List.reverse hconsumed, hnames⟩

end Bareword.Tree.Grammar
