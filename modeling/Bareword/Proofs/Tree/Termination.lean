import Bareword.Proofs.Tree.Calls

/-! # Termination

From one call to the next the parser goes forward or down the order of the productions, so it comes to an
end: every turn of a loop starts further on than the one before, and operands nest as deep as it is allowed.

* `Proceeds`, `Beyond`: from one state to a later one.
* `Arrives`: what holds where a task is called.
* `Called`: the calls that are under way.
* `Task.run_eq`: with more fuel than enough a task answers the same.
* `parse_terminates`: bounds of a parse.
-/

namespace Bareword.Tree.Grammar
set_option autoImplicit false
open Token (KindSet)
open Parsing

variable {setup : Setup} {s t u : State} {tok : Token} {fuel : Nat}

/-! ## Later states -/

/-- The parser went on to a good state: not back, and as deep in operands as before. -/
structure Proceeds (setup : Setup) (s t : State) : Prop where
  good : Good setup t
  le : s.pos ≤ t.pos
  depth_eq : t.depth = s.depth

/-- The parser went on and read something. -/
structure Beyond (setup : Setup) (s t : State) : Prop extends Proceeds setup s t where
  lt : s.pos < t.pos

theorem Proceeds.refl (hs : Good setup s) : Proceeds setup s s := ⟨hs, Nat.le_refl _, rfl⟩

theorem Proceeds.trans (h : Proceeds setup s u) (h' : Proceeds setup u t) : Proceeds setup s t :=
  ⟨h'.good, Nat.le_trans h.le h'.le, h'.depth_eq.trans h.depth_eq⟩

theorem Proceeds.beyond (h : Proceeds setup s u) (h' : Beyond setup u t) : Beyond setup s t :=
  ⟨h.trans h'.toProceeds, Nat.lt_of_le_of_lt h.le h'.lt⟩

theorem Beyond.trans (h : Beyond setup s u) (h' : Proceeds setup u t) : Beyond setup s t :=
  ⟨h.toProceeds.trans h', Nat.lt_of_lt_of_le h.lt h'.le⟩

theorem Proceeds.withParens (hs : Good setup s) (parens : Nat) : Proceeds setup s { s with parens } :=
  ⟨hs.with hs.pos rfl rfl, Nat.le_refl _, rfl⟩

section
variable {α : Type} {x : Parse α} {post : Prop → α → Snapshot → Prop} {a : α}

/-- What is known of a step is known of a run of it. -/
theorem Meets.of_run (h : Meets setup x s post) (hrun : x s = (a, t)) : Good setup t ∧ post False a (view t) := by
  have hgood := h.good
  have hpost := h.post False False.elim
  rw [hrun] at hgood hpost
  exact ⟨hgood, hpost⟩

theorem Proceeds.of_advances (ht : Good setup t) (h : (view s).Advances setup.src (view t)) : Proceeds setup s t :=
  ⟨ht, h.le, h.depth_eq⟩

theorem Meets.proceeds (h : Meets setup x s post)
    (hpost : ∀ a v, post False a v → (view s).Advances setup.src v) (hrun : x s = (a, t)) : Proceeds setup s t :=
  .of_advances (h.of_run hrun).1 (hpost a _ (h.of_run hrun).2)

end

/-! ## Steps -/

theorem proceeds_peek (hs : Good setup s) {accept : KindSet} (hrun : peek setup accept s = (tok, t)) :
    Proceeds setup s t ∧ Looks setup False (view t) accept tok := by
  obtain ⟨ht, hview, hlook⟩ := (meets_peek hs accept).of_run hrun
  rw [← hview] at hlook
  exact ⟨.of_advances ht (hview ▸ .refl _ _), hlook⟩

theorem beyond_shift (hs : Good setup s) {accept : KindSet} (hlook : Looks setup False (view s) accept tok)
    (hk : tok.kind ≠ .eof) (hrun : shift tok s = ((), t)) : Beyond setup s t := by
  obtain ⟨ht, hview⟩ := (meets_shift_of_looks hs hlook hk).of_run hrun
  have hpos : t.pos = tok.stop := congrArg Snapshot.pos hview
  exact ⟨.of_advances ht (hview ▸ hlook.advances hk), hpos ▸ hlook.lt_stop hk⟩

theorem beyond_shift_of_held (hs : Good setup s) (hheld : Held setup False (view s) tok) (hk : tok.kind ≠ .eof)
    (hrun : shift tok s = ((), t)) : Beyond setup s t := by
  obtain ⟨accept, hlook⟩ := hheld.looks
  exact beyond_shift hs hlook hk hrun

theorem beyond_advance (hs : Good setup s) (hlt : s.pos < tok.stop) (hbound : tok.stop ≤ setup.src.length)
    (hrun : advance tok s = ((), t)) : Beyond setup s t := by
  obtain ⟨ht, hview⟩ := (meets_advance hs hbound).of_run hrun
  have hpos : t.pos = tok.stop := congrArg Snapshot.pos hview
  exact ⟨.of_advances ht (hview ▸ .advance (Nat.le_of_lt hlt) hbound), hpos ▸ hlt⟩

theorem proceeds_moveTo (hs : Good setup s) {pos : Nat} (hle : s.pos ≤ pos) (hbound : pos ≤ setup.src.length)
    (hrun : moveTo pos s = ((), t)) : Proceeds setup s t ∧ t.pos = pos := by
  obtain ⟨ht, hview⟩ := (meets_moveTo hs hbound).of_run hrun
  exact ⟨.of_advances ht (hview ▸ .moveTo hle hbound), congrArg Snapshot.pos hview⟩

theorem proceeds_reduce (hs : Good setup s) {kind : Kind} (hrun : reduce setup kind s = ((), t)) : Proceeds setup s t :=
  (meets_reduce hs kind).proceeds (fun _ _ h => h ▸ .same rfl rfl rfl) hrun

theorem proceeds_complain (hs : Good setup s) {c : Complaint} {span : Span} {bad : Node}
    (hrun : complain setup c span s = (bad, t)) : Proceeds setup s t :=
  (meets_complain hs c span).proceeds (fun _ _ h => h.2 ▸ Snapshot.advances_complain _ _ _) hrun

theorem proceeds_missing (hs : Good setup s) {c : Complaint} {bad : Node} (hrun : missing setup c s = (bad, t)) :
    Proceeds setup s t :=
  (meets_missing hs c).proceeds (fun _ _ h => h.2 ▸ Snapshot.advances_complain _ _ _) hrun

theorem proceeds_colon (hs : Good setup s) {c : Node} (hrun : colon setup s = (c, t)) : Proceeds setup s t :=
  (meets_colon hs).proceeds (fun _ _ h => Expects.advances Token.Kind.noConfusion h) hrun

theorem proceeds_thenBlock (hs : Good setup s) {stmts : List Node} {block : Node}
    (hrun : thenBlock stmts s = (block, t)) : Proceeds setup s t :=
  (meets_thenBlock hs stmts).proceeds (fun _ _ h => h.2 ▸ .refl _ _) hrun

theorem proceeds_endStatement (hs : Good setup s) {stop : KindSet} {junk : Option Node}
    (hrun : endStatement setup stop s = (junk, t)) : Proceeds setup s t :=
  (meets_endStatement hs stop).proceeds (fun _ _ h => h.advances) hrun

theorem proceeds_calledOff (hs : Good setup s) (hgoing : ¬ s.halted = true)
    (hrun : calledOff setup s = (false, t)) : Proceeds setup s t := by
  obtain ⟨ht, -, hview⟩ := (meets_calledOff hs (Bool.eq_false_iff.mpr hgoing)).of_run hrun
  exact .of_advances ht (hview ▸ .same rfl rfl rfl)

/-- A statement that does not fit is not empty unless the source is over. -/
theorem beyond_skipStatement (hs : Good setup s) {accept : KindSet} (hlook : Looks setup False (view s) accept tok)
    (hk : tok.kind ≠ .eof) {c : Complaint} {bad : Node} (hrun : skipStatement setup c s = (bad, t)) :
    Beyond setup s t := by
  obtain ⟨ht, -, hview⟩ := (meets_skipStatement hs c).of_run hrun
  have hpos : t.pos = ((view s).skip setup c).pos := congrArg Snapshot.pos hview
  exact ⟨.of_advances ht (hview ▸ Snapshot.advances_skip _ _), hpos ▸ (view s).lt_skip c (hlook.skipBlank_lt hk)⟩

/-- A production that has what it needs goes on, and reads what it reads at least. -/
theorem proceeds_production (hs : Good setup s) (p : Production) (hready : p.Ready setup False (view s))
    (hfuel : p.need setup.src.length s.pos ≤ fuel) {a : p.Answer} (hrun : parserOf setup p fuel s = (a, t)) :
    Proceeds setup s t ∧ p.Consumes setup False (view s) (view t) := by
  obtain ⟨ht, hreads⟩ := (allMeet setup fuel p s hs hready hfuel).of_run hrun
  have hprogress := (hreads hready).progress
  exact ⟨.of_advances ht hprogress.1, hprogress.2⟩

section
variable {p : Production} (hfuel : p.need setup.src.length s.pos ≤ fuel + 1) (q : Production) {a : q.Answer}
include hfuel

/-- A production that reads something has enough fuel left for every other one. -/
theorem Beyond.run (h : Beyond setup s u) (hready : q.Ready setup False (view u))
    (hrun : parserOf setup q fuel u = (a, t)) : Beyond setup s t :=
  h.trans (proceeds_production h.good q hready (Production.need_of_lt hfuel h.lt h.good.pos) hrun).1

/-- A production has enough fuel for those below it. -/
theorem Proceeds.run (h : Proceeds setup s u) (hrank : q.rank < p.rank) (hready : q.Ready setup False (view u))
    (hrun : parserOf setup q fuel u = (a, t)) :
    Proceeds setup s t ∧ q.Consumes setup False (view u) (view t) := by
  obtain ⟨h', hconsumes⟩ := proceeds_production h.good q hready (Production.need_of_rank hfuel h.le hrank) hrun
  exact ⟨h.trans h', hconsumes⟩

end

/-! ## Where tasks are called -/

attribute [simp] Production.rank

namespace Task

/-- What a task relies on where it starts. -/
def Ready (setup : Setup) : Task → State → Prop
  | of p, s => p.Ready setup False (view s)
  | _, _ => True

/-- How many calls that read nothing can follow each other from a task on, at most. -/
@[simp]
def rank : Task → Nat
  | of p => p.rank
  | params _ | junk _ => 1

/-- The fuel that a task needs at an offset. -/
def need (x : Task) (length pos : Nat) : Nat := 16 * (length - pos) + x.rank

/-- How many operands a task is. -/
def operands : Task → Nat
  | of (.operand _ _) => 1
  | _ => 0

theorem rank_le (x : Task) : x.rank ≤ 9 := by
  cases x with
  | of p => exact p.rank_le
  | _ => exact Nat.le_add_left 1 8

theorem one_le_rank (x : Task) : 1 ≤ x.rank := by
  cases x with
  | of p => exact p.one_le_rank
  | _ => exact Nat.le_refl 1

end Task

/-- What holds where a task calls another one. -/
structure Arrives (setup : Setup) (x : Task) (s : State) (y : Task) (t : State) : Prop where
  good : Good setup t
  ready : y.Ready setup t
  forward : s.pos < t.pos ∨ s.pos ≤ t.pos ∧ y.rank < x.rank
  depth_eq : t.depth = s.depth + x.operands
  depth_le : 0 < x.operands → (t.depth : Int) ≤ setup.maxDepth

section
variable {x y : Task}

theorem Arrives.of_beyond (h : Beyond setup s t) (hready : y.Ready setup t) (hx : x.operands = 0) :
    Arrives setup x s y t :=
  ⟨h.good, hready, .inl h.lt, by rw [h.depth_eq, hx]; rfl, fun hpos => absurd hx (Nat.ne_of_gt hpos)⟩

theorem Arrives.of_proceeds (h : Proceeds setup s t) (hready : y.Ready setup t) (hrank : y.rank < x.rank)
    (hx : x.operands = 0) : Arrives setup x s y t :=
  ⟨h.good, hready, .inr ⟨h.le, hrank⟩, by rw [h.depth_eq, hx]; rfl, fun hpos => absurd hx (Nat.ne_of_gt hpos)⟩

end

section
variable {y : Task} (hs : Good setup s)
include hs

theorem proceeds_statements {stop : KindSet} (hgoing : ¬ s.halted = true) (hon : calledOff setup s = (false, u))
    (hlook : peek setup (stmtStart ∪ separators ∪ stop) u = (tok, t)) :
    Proceeds setup s t ∧ Looks setup False (view t) (stmtStart ∪ separators ∪ stop) tok := by
  have h := proceeds_calledOff hs hgoing hon
  obtain ⟨h', hseen⟩ := proceeds_peek h.good hlook
  exact ⟨h.trans h', hseen⟩

theorem arrives_statements {stop : KindSet}
    (hfuel : (Production.statements stop).need setup.src.length s.pos ≤ fuel + 1)
    (h : Calls setup fuel (.of (.statements stop)) s y t) : Arrives setup (.of (.statements stop)) s y t := by
  cases h with
  | separator hgoing hon hlook hends hk hshift =>
    obtain ⟨h, hseen⟩ := proceeds_statements hs hgoing hon hlook
    exact .of_beyond (h.beyond (beyond_shift h.good hseen (fun heof => hends (.inl heof)) hshift)) trivial rfl
  | statement hgoing hon hlook =>
    exact .of_proceeds (proceeds_statements hs hgoing hon hlook).1 trivial (by simp) rfl
  | nextStatement h hstmt hjunk =>
    cases h with
    | @statement _ _ _ _ tok hgoing hon hlook hends hk =>
      obtain ⟨h, hseen⟩ := proceeds_statements hs hgoing hon hlook
      obtain ⟨h', hreads⟩ := h.run hfuel .statement (by simp) trivial hstmt
      have hne : tok.kind ≠ .eof := fun heof => hends (.inl heof)
      have hlt := hreads (hseen.skipBlank_lt_of_not_newline hne fun hline => hk (.inl hline))
      have hbeyond : Beyond setup s _ := ⟨h', Nat.lt_of_le_of_lt h.le hlt⟩
      exact .of_beyond (hbeyond.trans (proceeds_endStatement h'.good hjunk)) trivial rfl

theorem arrives_statement (h : Calls setup fuel (.of .statement) s y t) : Arrives setup (.of .statement) s y t := by
  cases h with
  | assign hlook hk =>
    obtain ⟨h, hseen⟩ := proceeds_peek hs hlook
    exact .of_proceeds h ⟨⟨stmtStart, by decide, hseen⟩, hk⟩ (by simp) rfl
  | evaluate hlook =>
    exact .of_proceeds (proceeds_peek hs hlook).1 trivial (by simp) rfl

theorem arrives_assign (hready : (Production.assign tok).Ready setup False (view s))
    (h : Calls setup fuel (.of (.assign tok)) s y t) : Arrives setup (.of (.assign tok)) s y t := by
  have hne : tok.kind ≠ .eof := tok_ne hready.2 Token.Kind.noConfusion
  cases h with
  | value hshift hlook hk hshift' =>
    have h := beyond_shift_of_held hs hready.1 hne hshift
    obtain ⟨h', hseen⟩ := proceeds_peek h.good hlook
    have h'' := beyond_shift h'.good hseen (tok_ne hk Token.Kind.noConfusion) hshift'
    exact .of_beyond (h.trans (h'.trans h''.toProceeds)) trivial rfl
  | valueWithoutEq hshift hlook hk hmissing =>
    have h := beyond_shift_of_held hs hready.1 hne hshift
    obtain ⟨h', -⟩ := proceeds_peek h.good hlook
    exact .of_beyond (h.trans (h'.trans (proceeds_missing h'.good hmissing))) trivial rfl

theorem arrives_body {closers : KindSet} (h : Calls setup fuel (.of (.body closers)) s y t) :
    Arrives setup (.of (.body closers)) s y t := by
  have hzero := Proceeds.withParens hs 0
  cases h with
  | block hlook | inlined hlook =>
    exact .of_proceeds (hzero.trans (proceeds_peek hzero.good hlook).1) trivial (by simp) rfl

theorem arrives_inlineBody {closers : KindSet}
    (hfuel : (Production.inlineBody closers).need setup.src.length s.pos ≤ fuel + 1)
    (h : Calls setup fuel (.of (.inlineBody closers)) s y t) : Arrives setup (.of (.inlineBody closers)) s y t := by
  cases h with
  | first => exact .of_proceeds (.refl hs) trivial (by simp) rfl
  | rest hfirst =>
    obtain ⟨h, -⟩ := (Proceeds.refl hs).run hfuel .statement (by simp) trivial hfirst
    exact .of_proceeds h trivial (by simp) rfl

theorem arrives_inlineRest {closers : KindSet}
    (hfuel : (Production.inlineRest closers).need setup.src.length s.pos ≤ fuel + 1)
    (h : Calls setup fuel (.of (.inlineRest closers)) s y t) : Arrives setup (.of (.inlineRest closers)) s y t := by
  have hstatement {t : State} (h : Calls setup fuel (.of (.inlineRest closers)) s (.of .statement) t) :
      Beyond setup s t := by
    cases h with
    | furtherStatement hlook hcloser hk hshift hnext =>
      obtain ⟨h, hseen⟩ := proceeds_peek hs hlook
      have h' := beyond_shift h.good hseen (tok_ne (not_not.mp hk) Token.Kind.noConfusion) hshift
      exact (h.beyond h').trans (proceeds_peek h'.good hnext).1
  cases h with
  | furtherStatement hlook hcloser hk hshift hnext hopen hstart =>
    exact .of_beyond (hstatement (.furtherStatement hlook hcloser hk hshift hnext hopen hstart)) trivial rfl
  | furtherRest h hstmt => exact .of_beyond ((hstatement h).run hfuel .statement trivial hstmt) trivial rfl

theorem proceeds_params (hfuel : setup.src.length - s.pos < fuel) {node list : Node}
    (hrun : params setup fuel node s = (list, t)) : Proceeds setup s t :=
  (meets_params hs hfuel node).proceeds (fun _ _ h => h.advances) hrun

theorem arrives_functionDef (hready : (Production.functionDef tok).Ready setup False (view s))
    (hfuel : (Production.functionDef tok).need setup.src.length s.pos ≤ fuel + 1)
    (h : Calls setup fuel (.of (.functionDef tok)) s y t) : Arrives setup (.of (.functionDef tok)) s y t := by
  have hne : tok.kind ≠ .eof := tok_ne hready.2 Token.Kind.noConfusion
  cases h with
  | params hshift => exact .of_beyond (beyond_shift_of_held hs hready.1 hne hshift) trivial rfl
  | @functionBody _ s₁ _ _ _ _ _ _ hshift hlist hreduce hcolon =>
    have h := beyond_shift_of_held hs hready.1 hne hshift
    have hparams : setup.src.length - s₁.pos < fuel := by
      have hlt := h.lt
      have hbound := h.good.pos
      rw [Production.need] at hfuel
      omega
    have h := h.trans (proceeds_params h.good hparams hlist)
    have h := h.trans (proceeds_reduce h.good hreduce)
    exact .of_beyond (h.trans (proceeds_colon h.good hcolon)) trivial rfl

theorem arrives_params {node : Node} (h : Calls setup fuel (.params node) s y t) :
    Arrives setup (.params node) s y t := by
  cases h with
  | paramName hlook hk hshift =>
    obtain ⟨h, hseen⟩ := proceeds_peek hs hlook
    exact .of_beyond (h.beyond (beyond_shift h.good hseen (tok_ne hk Token.Kind.noConfusion) hshift)) trivial rfl
  | @badParam _ s₁ s₂ _ _ _ tok hlook hk hbad hmove =>
    obtain ⟨h, hseen⟩ := proceeds_peek hs hlook
    have hne : tok.kind ≠ .eof := tok_ne hk Token.Kind.noConfusion
    have hsame : s₂.pos = s₁.pos := congrArg (fun r => r.2.pos) hbad.symm
    have hlt : s₂.pos < tok.stop := hsame ▸ hseen.lt_stop hne
    have h := h.trans (proceeds_complain h.good hbad)
    obtain ⟨h', hpos⟩ := proceeds_moveTo h.good (Nat.le_of_lt hlt) (hseen.stop_le hne) hmove
    exact .of_beyond (h.beyond ⟨h', hpos ▸ hlt⟩) trivial rfl

theorem arrives_ifExpr (hready : (Production.ifExpr tok).Ready setup False (view s))
    (hfuel : (Production.ifExpr tok).need setup.src.length s.pos ≤ fuel + 1)
    (h : Calls setup fuel (.of (.ifExpr tok)) s y t) : Arrives setup (.of (.ifExpr tok)) s y t := by
  have hne : tok.kind ≠ .eof := tok_ne hready.2 Token.Kind.noConfusion
  cases h with
  | condition hshift => exact .of_beyond (beyond_shift_of_held hs hready.1 hne hshift) trivial rfl
  | thenBody hshift hcondition hcolon =>
    have h := (beyond_shift_of_held hs hready.1 hne hshift).run hfuel (.binary lowest false) trivial hcondition
    exact .of_beyond (h.trans (proceeds_colon h.good hcolon)) trivial rfl
  | branches hshift hcondition hcolon hbody hblock =>
    have h := (beyond_shift_of_held hs hready.1 hne hshift).run hfuel (.binary lowest false) trivial hcondition
    have h := (h.trans (proceeds_colon h.good hcolon)).run hfuel (.body ifClosers) trivial hbody
    exact .of_beyond (h.trans (proceeds_thenBlock h.good hblock)) trivial rfl

theorem arrives_branches {node : Node} {block seenElse : Bool}
    (hfuel : (Production.branches node block seenElse).need setup.src.length s.pos ≤ fuel + 1)
    (h : Calls setup fuel (.of (.branches node block seenElse)) s y t) :
    Arrives setup (.of (.branches node block seenElse)) s y t := by
  have hkeyword {tok : Token} {s₁ s₂ : State} (hlook : peek setup (branchStart block seenElse) s = (tok, s₁))
      (hk : tok.kind ≠ .eof) (hshift : shift tok s₁ = ((), s₂)) : Beyond setup s s₂ := by
    obtain ⟨h, hseen⟩ := proceeds_peek hs hlook
    exact h.beyond (beyond_shift h.good hseen hk hshift)
  cases h with
  | elsifCondition hlook hk hshift =>
    exact .of_beyond (hkeyword hlook (tok_ne hk Token.Kind.noConfusion) hshift) trivial rfl
  | elsifBody hlook hk hshift hcondition hcolon =>
    have h := hkeyword hlook (tok_ne hk Token.Kind.noConfusion) hshift
    have h := h.run hfuel (.binary lowest false) trivial hcondition
    exact .of_beyond (h.trans (proceeds_colon h.good hcolon)) trivial rfl
  | nextElsif hlook hk hshift hcondition hcolon hbody hblock =>
    have h := hkeyword hlook (tok_ne hk Token.Kind.noConfusion) hshift
    have h := h.run hfuel (.binary lowest false) trivial hcondition
    have h := (h.trans (proceeds_colon h.good hcolon)).run hfuel (.body ifClosers) trivial hbody
    exact .of_beyond (h.trans (proceeds_thenBlock h.good hblock)) trivial rfl
  | elseBody hlook hk hshift hcolon =>
    have h := hkeyword hlook (tok_ne hk Token.Kind.noConfusion) hshift
    exact .of_beyond (h.trans (proceeds_colon h.good hcolon)) trivial rfl
  | nextElse hlook hk hshift hcolon hbody hblock =>
    have h := hkeyword hlook (tok_ne hk Token.Kind.noConfusion) hshift
    have h := (h.trans (proceeds_colon h.good hcolon)).run hfuel (.body fnClosers) trivial hbody
    exact .of_beyond (h.trans (proceeds_thenBlock h.good hblock)) trivial rfl

theorem arrives_expression (hfuel : Production.expression.need setup.src.length s.pos ≤ fuel + 1)
    (h : Calls setup fuel (.of .expression) s y t) : Arrives setup (.of .expression) s y t := by
  cases h with
  | left => exact .of_proceeds (.refl hs) trivial (by simp) rfl
  | stages hleft hlook hk =>
    obtain ⟨h, -⟩ := (Proceeds.refl hs).run hfuel (.binary lowest true) (by simp) trivial hleft
    obtain ⟨h', hseen⟩ := proceeds_peek h.good hlook
    exact .of_proceeds (h.trans h') ⟨⟨stageEnd, by decide, hseen⟩, hk⟩ (by simp) rfl

theorem arrives_stages {node : Node} (hready : (Production.stages node tok).Ready setup False (view s))
    (hfuel : (Production.stages node tok).need setup.src.length s.pos ≤ fuel + 1)
    (h : Calls setup fuel (.of (.stages node tok)) s y t) : Arrives setup (.of (.stages node tok)) s y t := by
  have hne : tok.kind ≠ .eof := tok_ne hready.2 Token.Kind.noConfusion
  cases h with
  | stage hshift => exact .of_beyond (beyond_shift_of_held hs hready.1 hne hshift) trivial rfl
  | nextStage hshift hvalue hlook hk =>
    have h := (beyond_shift_of_held hs hready.1 hne hshift).run hfuel (.binary lowest true) trivial hvalue
    obtain ⟨h', hseen⟩ := proceeds_peek h.good hlook
    exact .of_beyond (h.trans h') ⟨⟨stageEnd, by decide, hseen⟩, hk⟩ rfl

theorem arrives_binary {minPrec : Nat} {callable : Bool}
    (hfuel : (Production.binary minPrec callable).need setup.src.length s.pos ≤ fuel + 1)
    (h : Calls setup fuel (.of (.binary minPrec callable)) s y t) :
    Arrives setup (.of (.binary minPrec callable)) s y t := by
  cases h with
  | operand hlook =>
    obtain ⟨h, hseen⟩ := proceeds_peek hs hlook
    exact .of_proceeds h ⟨exprStart, by decide, hseen⟩ (by simp) rfl
  | @operators _ _ _ _ _ tok _ hlook hleft =>
    obtain ⟨h, hseen⟩ := proceeds_peek hs hlook
    have hready : (Production.operand tok callable).Ready setup False (view _) := ⟨exprStart, by decide, hseen⟩
    obtain ⟨h', -⟩ := h.run hfuel (.operand tok callable) (by simp) hready hleft
    exact .of_proceeds h' trivial (by simp) rfl

theorem arrives_operators {minPrec : Nat} {left : Node}
    (hfuel : (Production.operators minPrec left).need setup.src.length s.pos ≤ fuel + 1)
    (h : Calls setup fuel (.of (.operators minPrec left)) s y t) :
    Arrives setup (.of (.operators minPrec left)) s y t := by
  have hoperator {tok : Token} {s₁ s₂ : State} (hlook : peek setup (binaryOps ∪ separators) s = (tok, s₁))
      (hprec : ¬ (precedence tok.kind = 0 ∨ precedence tok.kind < minPrec)) (hshift : shift tok s₁ = ((), s₂)) :
      Beyond setup s s₂ := by
    have hne : tok.kind ≠ .eof := by
      intro heof
      rw [heof] at hprec
      exact hprec (.inl rfl)
    obtain ⟨h, hseen⟩ := proceeds_peek hs hlook
    exact h.beyond (beyond_shift h.good hseen hne hshift)
  cases h with
  | right hlook hprec hshift => exact .of_beyond (hoperator hlook hprec hshift) trivial rfl
  | @nextOperator _ _ _ _ _ _ _ tok hlook hprec hshift hright =>
    have h := hoperator hlook hprec hshift
    exact .of_beyond (h.run hfuel (.binary (precedence tok.kind + 1) false) trivial hright) trivial rfl

theorem arrives_operand {callable : Bool} (hready : (Production.operand tok callable).Ready setup False (view s))
    (h : Calls setup fuel (.of (.operand tok callable)) s y t) : Arrives setup (.of (.operand tok callable)) s y t := by
  cases h with
  | operandBody hdepth =>
    refine ⟨hs.with hs.pos rfl rfl, hready, .inr ⟨Nat.le_refl _, by simp⟩, rfl, fun _ => ?_⟩
    dsimp only
    omega

theorem arrives_operandBody {callable : Bool}
    (hready : (Production.operandBody tok callable).Ready setup False (view s))
    (h : Calls setup fuel (.of (.operandBody tok callable)) s y t) :
    Arrives setup (.of (.operandBody tok callable)) s y t := by
  cases h with
  | string hk hshift | call hk hshift | group hk hshift =>
    exact .of_beyond (beyond_shift_of_held hs hready (tok_ne hk Token.Kind.noConfusion) hshift) trivial rfl
  | word hk hmove =>
    obtain ⟨accept, hlook⟩ := Held.looks hready
    have hne : tok.kind ≠ .eof := tok_ne hk Token.Kind.noConfusion
    have hbound := Nat.le_of_lt (Nat.lt_of_lt_of_le (hlook.stands hne).lt (hlook.stop_le hne))
    exact .of_proceeds (proceeds_moveTo hs (hlook.start_le hne) hbound hmove).1 trivial (by simp) rfl
  | function hk | conditional hk =>
    exact .of_proceeds (.refl hs) ⟨hready, hk⟩ (by simp) rfl

theorem arrives_call {id : Node} (h : Calls setup fuel (.of (.call id)) s y t) :
    Arrives setup (.of (.call id)) s y t := by
  cases h with
  | args hglued hlook hk =>
    obtain ⟨h, hseen⟩ := proceeds_peek hs hlook
    exact .of_proceeds h ⟨⟨_, by decide, hseen⟩, hk⟩ (by simp) rfl

theorem arrives_args {node : Node} (hready : (Production.args node tok).Ready setup False (view s))
    (hfuel : (Production.args node tok).need setup.src.length s.pos ≤ fuel + 1)
    (h : Calls setup fuel (.of (.args node tok)) s y t) : Arrives setup (.of (.args node tok)) s y t := by
  cases h with
  | arg => exact .of_proceeds (.refl hs) hready (by simp) rfl
  | nextArg harg hlook hk =>
    obtain ⟨h, hreads⟩ := (Proceeds.refl hs).run hfuel (.arg tok) (by simp) hready harg
    have hbeyond : Beyond setup s _ := ⟨h, hreads hready.2⟩
    obtain ⟨h', hseen⟩ := proceeds_peek h.good hlook
    exact .of_beyond (hbeyond.trans h') ⟨⟨_, by decide, hseen⟩, hk⟩ rfl

theorem arrives_arg (hready : (Production.arg tok).Ready setup False (view s))
    (h : Calls setup fuel (.of (.arg tok)) s y t) : Arrives setup (.of (.arg tok)) s y t := by
  cases h with
  | positional => exact .of_proceeds (.refl hs) hready.1 (by simp) rfl
  | named hk hshift hlook =>
    have h := beyond_shift_of_held hs hready.1 (tok_ne (not_not.mp hk) Token.Kind.noConfusion) hshift
    obtain ⟨h', hseen⟩ := proceeds_peek h.good hlook
    exact .of_beyond (h.trans h') ⟨_, by decide, hseen⟩ rfl

theorem arrives_parenBody {opening : Span}
    (hfuel : (Production.parenBody opening).need setup.src.length s.pos ≤ fuel + 1)
    (h : Calls setup fuel (.of (.parenBody opening)) s y t) : Arrives setup (.of (.parenBody opening)) s y t := by
  have henter := Proceeds.withParens hs (s.parens + 1)
  cases h with
  | inside hlook =>
    exact .of_proceeds (henter.trans (proceeds_peek henter.good hlook).1) trivial (by simp) rfl
  | junk hlook hk hvalue =>
    have h := henter.trans (proceeds_peek henter.good hlook).1
    obtain ⟨h', -⟩ := h.run hfuel .expression (by simp) trivial hvalue
    exact .of_proceeds h' trivial (by simp) rfl

theorem arrives_junk {node : Node} (h : Calls setup fuel (.junk node) s y t) : Arrives setup (.junk node) s y t := by
  cases h with
  | moreJunk hlook hends hskip =>
    obtain ⟨h, hseen⟩ := proceeds_peek hs hlook
    have hne := fun heof => hends (.inr (.inl heof))
    exact .of_beyond (h.beyond (beyond_skipStatement h.good hseen hne hskip)) trivial rfl

theorem arrives_stringPieces {quote : Nat} {node : Node}
    (hfuel : (Production.stringPieces quote node).need setup.src.length s.pos ≤ fuel + 1)
    (h : Calls setup fuel (.of (.stringPieces quote node)) s y t) :
    Arrives setup (.of (.stringPieces quote node)) s y t := by
  have hready (hk : (Token.stringPiece setup.src s.pos quote).kind ∉ [Token.Kind.quote, .eof, .fragment]) :
      (Production.piece (Token.stringPiece setup.src s.pos quote)).Ready setup False (view s) := by
    simp only [List.mem_cons, List.not_mem_nil, or_false, not_or] at hk
    rcases Token.stringPiece_cases setup.src s.pos quote with ⟨h, -⟩ | ⟨width, h, -⟩ | hpiece
    · exact absurd (congrArg Token.kind h) hk.2.1
    · exact absurd (congrArg Token.kind h) hk.1
    · exact ⟨hpiece, hk.2.2⟩
  cases h with
  | stringText hk hadvance =>
    have hstop := stringPiece_stop (tok_ne hk Token.Kind.noConfusion)
    exact .of_beyond (beyond_advance hs hstop.1 hstop.2 hadvance) trivial rfl
  | stringPart hk => exact .of_proceeds (.refl hs) (hready hk) (by simp) rfl
  | nextStringPart hk hpiece =>
    obtain ⟨h, hreads⟩ := (Proceeds.refl hs).run hfuel (.piece _) (by simp) (hready hk) hpiece
    exact .of_beyond ⟨h, hreads⟩ trivial rfl

theorem arrives_wordPieces {node : Node}
    (hfuel : (Production.wordPieces node).need setup.src.length s.pos ≤ fuel + 1)
    (h : Calls setup fuel (.of (.wordPieces node)) s y t) : Arrives setup (.of (.wordPieces node)) s y t := by
  have hready (hk : (Token.wordPiece setup.src s.pos).kind ∉ [Token.Kind.fragmentEnd, .fragment]) :
      (Production.piece (Token.wordPiece setup.src s.pos)).Ready setup False (view s) := by
    simp only [List.mem_cons, List.not_mem_nil, or_false, not_or] at hk
    rcases Token.wordPiece_cases setup.src s.pos with h | hpiece
    · exact absurd (congrArg Token.kind h) hk.1
    · exact ⟨hpiece, hk.2⟩
  cases h with
  | wordText hk hadvance =>
    have hstop := wordPiece_stop (tok_ne hk Token.Kind.noConfusion)
    exact .of_beyond (beyond_advance hs hstop.1 hstop.2 hadvance) trivial rfl
  | wordPart hk => exact .of_proceeds (.refl hs) (hready hk) (by simp) rfl
  | nextWordPart hk hpiece =>
    obtain ⟨h, hreads⟩ := (Proceeds.refl hs).run hfuel (.piece _) (by simp) (hready hk) hpiece
    exact .of_beyond ⟨h, hreads⟩ trivial rfl

theorem arrives_piece (hready : (Production.piece tok).Ready setup False (view s))
    (h : Calls setup fuel (.of (.piece tok)) s y t) : Arrives setup (.of (.piece tok)) s y t := by
  cases h with
  | interpolated hk hadvance => exact .of_beyond (beyond_advance hs hready.1.lt hready.1.le hadvance) trivial rfl

end

/-- A task can start: in a good state, with what it relies on and with enough fuel. -/
structure Task.Starts (setup : Setup) (x : Task) (s : State) (fuel : Nat) : Prop where
  good : Good setup s
  ready : x.Ready setup s
  need_le : x.need setup.src.length s.pos ≤ fuel

section
variable {x y : Task}

/-- Every call goes forward, or down the order of the productions. -/
theorem Calls.arrives (h : Calls setup fuel x s y t) (hx : x.Starts setup s (fuel + 1)) : Arrives setup x s y t := by
  obtain ⟨hs, hready, hfuel⟩ := hx
  cases x with
  | params node => exact arrives_params hs h
  | junk node => exact arrives_junk hs h
  | of p =>
    cases p with
    | statements stop => exact arrives_statements hs hfuel h
    | statement => exact arrives_statement hs h
    | assign tok => exact arrives_assign hs hready h
    | body closers => exact arrives_body hs h
    | inlineBody closers => exact arrives_inlineBody hs hfuel h
    | inlineRest closers => exact arrives_inlineRest hs hfuel h
    | functionDef tok => exact arrives_functionDef hs hready hfuel h
    | ifExpr tok => exact arrives_ifExpr hs hready hfuel h
    | branches node block seenElse => exact arrives_branches hs hfuel h
    | expression => exact arrives_expression hs hfuel h
    | stages node tok => exact arrives_stages hs hready hfuel h
    | binary minPrec callable => exact arrives_binary hs hfuel h
    | operators minPrec left => exact arrives_operators hs hfuel h
    | operand tok callable => exact arrives_operand hs hready h
    | operandBody tok callable => exact arrives_operandBody hs hready h
    | call id => exact arrives_call hs h
    | args node tok => exact arrives_args hs hready hfuel h
    | arg tok => exact arrives_arg hs hready h
    | parenBody opening => exact arrives_parenBody hs hfuel h
    | stringPieces quote node => exact arrives_stringPieces hs hfuel h
    | wordPieces node => exact arrives_wordPieces hs hfuel h
    | piece tok => exact arrives_piece hs hready h

theorem Arrives.starts (h : Arrives setup x s y t) (hfuel : x.need setup.src.length s.pos ≤ fuel + 1) :
    y.Starts setup t fuel := by
  refine ⟨h.good, h.ready, ?_⟩
  have hrank := y.rank_le
  have hbound := h.good.pos
  have hforward := h.forward
  rw [Task.need] at hfuel ⊢
  omega

theorem Task.Starts.fuel_pos (h : x.Starts setup s fuel) : 0 < fuel :=
  Nat.lt_of_lt_of_le (Nat.lt_of_lt_of_le x.one_le_rank (Nat.le_add_left _ _)) h.need_le

/-- With more fuel than enough, a task answers the same. -/
theorem Task.run_eq {fuel' : Nat} (h : x.Starts setup s fuel) (h' : x.Starts setup s fuel') :
    x.run setup fuel s = x.run setup fuel' s := by
  induction fuel generalizing x s fuel' with
  | zero => exact absurd h.fuel_pos (Nat.lt_irrefl 0)
  | succ fuel ih =>
    cases fuel' with
    | zero => exact absurd h'.fuel_pos (Nat.lt_irrefl 0)
    | succ fuel' =>
      refine Task.run_congr fun y t hcall => ?_
      have harrives := hcall.arrives h
      exact ih (harrives.starts h.need_le) (harrives.starts h'.need_le)

/-- A task that has what it needs ends inside the source. -/
theorem Task.Starts.good_run (h : x.Starts setup s fuel) : Good setup (x.run setup fuel s).2 := by
  obtain ⟨hs, hready, hfuel⟩ := h
  cases x with
  | of p => exact (allMeet setup fuel p s hs hready hfuel).good
  | params node => exact (meets_params hs (by rw [Task.need, Task.rank] at hfuel; omega) node).good
  | junk node => exact (meets_parenJunk hs (by rw [Task.need, Task.rank] at hfuel; omega) node).good

end

/-! ## Calls that are under way -/

/-- What the parser is at work on at some time of a parse: the task that was called last, the state in
which it started, the fuel that it has and how many operands the calls are that led to it, with its own. -/
inductive Called (setup : Setup) : Task → State → Nat → Nat → Prop where
  | start : Called setup (.of (.statements .empty)) (.start setup) (fuelFor setup.src.length) 0
  | call {x y : Task} {s t : State} {fuel operands : Nat} (h : Called setup x s (fuel + 1) operands)
      (hcall : Calls setup fuel x s y t) : Called setup y t fuel (operands + y.operands)

/-- What every call keeps. -/
structure Bounded (setup : Setup) (x : Task) (s : State) (fuel operands : Nat) : Prop where
  starts : x.Starts setup s fuel
  operands_eq : operands = s.depth + x.operands
  depth_le : (s.depth : Int) ≤ max setup.maxDepth 0

variable {x y : Task} {operands : Nat}

theorem starts_start {fuel : Nat} (hfuel : fuelFor setup.src.length ≤ fuel) :
    (Task.of (.statements .empty)).Starts setup (.start setup) fuel := by
  refine ⟨good_start setup, trivial, ?_⟩
  change 16 * (setup.src.length - 0) + 8 ≤ fuel
  rw [fuelFor] at hfuel
  omega

theorem Bounded.call (h : Bounded setup x s (fuel + 1) operands) (hcall : Calls setup fuel x s y t) :
    Bounded setup y t fuel (operands + y.operands) := by
  have harrives := hcall.arrives h.starts
  have hdepth := harrives.depth_eq
  refine ⟨harrives.starts h.starts.need_le, by rw [h.operands_eq, hdepth], ?_⟩
  rcases Nat.eq_zero_or_pos x.operands with hzero | hpos
  · rw [hdepth, hzero]
    exact h.depth_le
  · exact Int.le_trans (harrives.depth_le hpos) (Int.le_max_left _ _)

theorem Called.bounded (h : Called setup x s fuel operands) : Bounded setup x s fuel operands := by
  induction h with
  | start => exact ⟨starts_start (Nat.le_refl _), rfl, Int.le_max_right _ _⟩
  | call _ hcall ih => exact ih.call hcall

theorem Task.operands_le_one (x : Task) : x.operands ≤ 1 := by
  cases x with
  | of p => cases p <;> simp [operands]
  | _ => exact Nat.zero_le 1

theorem Bounded.operands_le (h : Bounded setup x s fuel operands) : (operands : Int) ≤ max setup.maxDepth 0 + 1 := by
  have hone := x.operands_le_one
  have hdepth := h.depth_le
  rw [h.operands_eq]
  omega

/-! ## Loops -/

/-- The rank of the tasks that are turns of a loop. -/
def Loop.rank : Loop → Nat
  | .statements => 8
  | .args => 6
  | .stringPieces | .wordPieces => 2
  | _ => 1

theorem Task.rank_of_loop? {l : Loop} (h : x.loop? = some l) : x.rank = l.rank := by
  cases x with
  | params node | junk node => cases h; rfl
  | of p => cases p <;> cases h <;> rfl

/-- The next turn of a loop starts further on. -/
theorem Arrives.lt_of_loop? (h : Arrives setup x s y t) {l : Loop} (hx : x.loop? = some l) (hy : y.loop? = some l) :
    s.pos < t.pos := by
  refine h.forward.resolve_right fun ⟨_, hrank⟩ => ?_
  rw [Task.rank_of_loop? hx, Task.rank_of_loop? hy] at hrank
  exact Nat.lt_irrefl _ hrank

/-! ## Parses -/

/-- A parse comes to an end, whatever the source is, how deep operands may nest, which names are commands and
when it is called off. No call runs out of fuel, starts or ends outside the source, or nests operands deeper
than it is allowed, where the one that is refused counts; every turn of a loop that does not end it starts
the next one further on; with more fuel the statements are the same; and the tree is a program. -/
theorem parse_terminates (setup : Setup) :
    (∀ (x : Task) (s : State) (fuel operands : Nat), Called setup x s fuel operands →
      0 < fuel ∧ s.pos ≤ setup.src.length ∧ (x.run setup fuel s).2.pos ≤ setup.src.length ∧
        (operands : Int) ≤ max setup.maxDepth 0 + 1) ∧
    (∀ (x y : Task) (s t : State) (fuel operands : Nat) (l : Loop), Called setup x s (fuel + 1) operands →
      Calls setup fuel x s y t → x.loop? = some l → y.loop? = some l → s.pos < t.pos) ∧
    (∀ fuel, fuelFor setup.src.length ≤ fuel →
      statements setup .empty fuel (.start setup) =
        statements setup .empty (fuelFor setup.src.length) (.start setup)) ∧
    (parse setup).tree.kind = .program := by
  refine ⟨fun x s fuel operands h => ?_, fun x y s t fuel operands l h hcall hx hy => ?_, fun fuel hfuel => ?_, ?_⟩
  · have hbounded := h.bounded
    exact ⟨hbounded.starts.fuel_pos, hbounded.starts.good.pos, hbounded.starts.good_run.pos, hbounded.operands_le⟩
  · exact (hcall.arrives h.bounded.starts).lt_of_loop? hx hy
  · exact Task.run_eq (starts_start hfuel) (starts_start (Nat.le_refl _))
  · obtain ⟨stmts, t, h⟩ := parse_outcome setup False False.elim
    rw [h.tree_eq]
    rfl

end Bareword.Tree.Grammar
