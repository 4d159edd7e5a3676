import Bareword.Proofs.Tree.Descent
import Bareword.Proofs.Tree.Progress

/-! # What happens along the way

From one snapshot to another, tokens are consumed and error nodes are made. They lie one after the other
in the source with blanks between them, and the error nodes are those of the answer, in order.

* `Event`, `Covers`: tokens and error nodes that lie between two offsets.
* `Traced`: the events between two snapshots account for all that they differ in.
* `Reads.traced`: what every production reads and answers.
-/

namespace Bareword.Tree

/-! ## Error nodes -/

namespace Node
set_option autoImplicit false

theorem preorderAll_eq (cs : List Node) : preorder.preorderAll cs = cs.flatMap preorder := by
  induction cs with
  | nil => rfl
  | cons c cs ih => rw [preorder.preorderAll, ih, List.flatMap_cons]

theorem errors_eq (n : Node) : n.errors = (if n.kind = .error then [n] else []) ++ n.children.flatMap errors := by
  rw [errors, preorder_eq, preorderAll_eq, List.filter_cons, List.filter_flatMap]
  by_cases hk : n.kind = .error
  · rw [if_pos (beq_iff_eq.mpr hk), if_pos hk]
    rfl
  · rw [if_neg (beq_iff_eq.not.mpr hk), if_neg hk]
    rfl

theorem errors_of_kind {n : Node} (h : ¬ n.kind = .error) : n.errors = n.children.flatMap errors := by
  rw [errors_eq, if_neg h, List.nil_append]

theorem errors_span {n : Node} (h : ¬ n.kind = .error) (span : Span) : { n with span }.errors = n.errors := by
  have hspan : ¬ { n with span }.kind = .error := h
  rw [errors_of_kind h, errors_of_kind hspan]

@[simp] theorem leaf_kind (kind : Kind) (tok : Token) : (leaf kind tok).kind = kind := rfl

@[simp] theorem branch_kind (kind : Kind) (children : List Node) : (branch kind children).kind = kind := rfl

@[simp] theorem push_kind (n c : Node) : (n.push c).kind = n.kind := rfl

@[simp] theorem append_kind (n : Node) (cs : List Node) : (n.append cs).kind = n.kind := by
  induction cs generalizing n with
  | nil => rfl
  | cons c cs ih => exact ih (n.push c)

theorem append_children (n : Node) (cs : List Node) : (n.append cs).children = n.children ++ cs := by
  induction cs generalizing n with
  | nil => exact (List.append_nil _).symm
  | cons c cs ih =>
    change ((n.push c).append cs).children = _
    rw [ih, push, List.append_assoc, List.singleton_append]

@[simp] theorem errors_leaf {kind : Kind} (h : ¬ kind = .error) (tok : Token) : (leaf kind tok).errors = [] :=
  errors_of_kind h

@[simp] theorem errors_branch {kind : Kind} (h : ¬ kind = .error) (children : List Node) :
    (branch kind children).errors = children.flatMap errors :=
  errors_of_kind h

@[simp] theorem errors_push {n : Node} (h : ¬ n.kind = .error) (c : Node) :
    (n.push c).errors = n.errors ++ c.errors := by
  have hpush : (n.push c).kind ≠ .error := h
  rw [errors_of_kind h, errors_of_kind hpush, push, List.flatMap_append, List.flatMap_singleton]

@[simp] theorem errors_append {n : Node} (h : ¬ n.kind = .error) (cs : List Node) :
    (n.append cs).errors = n.errors ++ cs.flatMap errors := by
  have happend : (n.append cs).kind ≠ .error := by rwa [append_kind]
  rw [errors_of_kind h, errors_of_kind happend, append_children, List.flatMap_append]

end Node

namespace Grammar
set_option autoImplicit false
open Token (KindSet)
open Report (SyntaxFault)
open Parsing
open Node

@[simp] theorem errors_faultNode (setup : Setup) (c : Complaint) (span : Span) :
    (faultNode setup c span).errors = [faultNode setup c span] := by
  rw [errors_eq]
  rfl

/-! ## Events -/

/-- A token is consumed, or something does not fit. -/
inductive Event where
  | token (tok : Token)
  | fault (node : Node)

namespace Event

def span : Event → Span
  | token tok => tok.span
  | fault node => node.span

def token? : Event → Option Token
  | token tok => some tok
  | fault _ => none

def fault? : Event → Option Node
  | token _ => none
  | fault node => some node

end Event

def tokensOf (es : List Event) : List Token := es.filterMap Event.token?

def faultsOf (es : List Event) : List Node := es.filterMap Event.fault?

@[simp] theorem tokensOf_nil : tokensOf [] = [] := rfl

@[simp] theorem tokensOf_append (es es' : List Event) : tokensOf (es ++ es') = tokensOf es ++ tokensOf es' :=
  List.filterMap_append ..

@[simp] theorem faultsOf_nil : faultsOf [] = [] := rfl

@[simp] theorem faultsOf_append (es es' : List Event) : faultsOf (es ++ es') = faultsOf es ++ faultsOf es' :=
  List.filterMap_append ..

@[simp] theorem faultsOf_token (tok : Token) (es : List Event) : faultsOf (.token tok :: es) = faultsOf es := rfl

@[simp] theorem faultsOf_fault (n : Node) (es : List Event) : faultsOf (.fault n :: es) = n :: faultsOf es := rfl

/-- Between two offsets lie only blanks. -/
structure Gap (src : Text) (p q : Nat) : Prop where
  le : p ≤ q
  blank : ∀ i, p ≤ i → i < q → ∀ b, src[i]? = some b → Token.IsBlank b

theorem Gap.skipBlank (src : Text) (pos : Nat) (keep : Bool) : Gap src pos (Token.skipBlank src pos keep) :=
  ⟨Token.le_skipBlank src pos keep, fun _ hlow hhigh _ hb => Token.isBlank_of_skipped hlow hhigh hb⟩

/-- Some events fill what lies between two offsets, up to blanks. Error nodes without extent lie anywhere. -/
inductive Covers (src : Text) : Nat → List Event → Nat → Prop where
  | done (p : Nat) : Covers src p [] p
  | blank {p q r : Nat} {es : List Event} (hgap : Gap src p q) (hrest : Covers src q es r) : Covers src p es r
  | event {p q r : Nat} {e : Event} {es : List Event} (hspan : e.span = ⟨p, q⟩) (hlt : p < q)
      (hrest : Covers src q es r) : Covers src p (e :: es) r
  | point {p r : Nat} {n : Node} {es : List Event} (hspan : n.span.stop = n.span.start)
      (hrest : Covers src p es r) : Covers src p (.fault n :: es) r

theorem Covers.append {src : Text} {p q r : Nat} {es es' : List Event} (h : Covers src p es q)
    (h' : Covers src q es' r) : Covers src p (es ++ es') r := by
  induction h with
  | done => exact h'
  | blank hgap _ ih => exact .blank hgap (ih h')
  | event hspan hlt _ ih => exact .event hspan hlt (ih h')
  | point hspan _ ih => exact .point hspan (ih h')

/-! ## Faults -/

/-- The fault that an error node is reported as. -/
def faultOf (setup : Setup) (n : Node) : SyntaxFault :=
  .ofSpan setup.filename setup.src n.span n.code n.message

/-- The parse stops when its list of faults is full. -/
structure Snapshot.Fair (s : Snapshot) : Prop where
  length_le : s.faults.length ≤ maxFaults
  halted_iff : s.halted = true ↔ s.faults.length = maxFaults

/-- Between two snapshots some error nodes were made. -/
structure Tally (setup : Setup) (s : Snapshot) (ns : List Node) (t : Snapshot) : Prop where
  fair : t.Fair
  faults_eq : t.faults = (s.faults ++ ns.map (faultOf setup)).take maxFaults

/-- The parse is never called off. -/
def Live (setup : Setup) : Prop := ∀ n, setup.isOff n = false

/-- The events between two snapshots are all that they differ in. -/
structure Traced (setup : Setup) (s : Snapshot) (es : List Event) (t : Snapshot) : Prop where
  covers : Covers setup.src s.pos es t.pos
  consumed : t.consumed = (tokensOf es).reverse ++ s.consumed
  tally : Live setup → s.Fair → Tally setup s (faultsOf es) t

section
variable {setup : Setup} {exact : Prop} {s t u : Snapshot} {es es' : List Event} {tok : Token}

theorem Tally.same (h : s.Fair) (hfaults : t.faults = s.faults) (hhalted : t.halted = s.halted) :
    Tally setup s [] t := by
  refine ⟨⟨hfaults ▸ h.length_le, ?_⟩, ?_⟩
  · rw [hfaults, hhalted]
    exact h.halted_iff
  · rw [hfaults, List.map_nil, List.append_nil, List.take_of_length_le h.length_le]

theorem Tally.trans {ns ms : List Node} (h : Tally setup s ns u) (h' : Tally setup u ms t) :
    Tally setup s (ns ++ ms) t := by
  refine ⟨h'.fair, ?_⟩
  have hcap : ∀ fs gs : List SyntaxFault,
      (fs.take maxFaults ++ gs).take maxFaults = (fs ++ gs).take maxFaults := by
    intro fs gs
    rw [List.take_append, List.take_append, List.take_take, Nat.min_self, List.length_take,
      show maxFaults - min maxFaults fs.length = maxFaults - fs.length by omega]
  rw [h'.faults_eq, h.faults_eq, hcap, List.append_assoc, ← List.map_append]

/-- One more error node is recorded unless the list of faults is full. -/
theorem Tally.complain (h : s.Fair) (c : Complaint) (span : Span) :
    Tally setup s [faultNode setup c span] (s.complain setup c span) := by
  have hlength := h.length_le
  have hrecord : Snapshot.record setup s.faults c span =
      (s.faults ++ [faultOf setup (faultNode setup c span)]).take maxFaults := by
    rw [Snapshot.record]
    by_cases hroom : s.faults.length < maxFaults
    · rw [if_pos hroom, List.take_of_length_le]
      · rfl
      · rw [List.length_append, List.length_singleton]
        exact hroom
    · rw [if_neg hroom, List.take_append_of_le_length (by omega), List.take_of_length_le hlength]
  refine ⟨⟨?_, ?_⟩, hrecord⟩
  · change (Snapshot.record setup s.faults c span).length ≤ maxFaults
    rw [hrecord, List.length_take]
    exact Nat.min_le_left ..
  · change (s.halted || decide (maxFaults ≤ (Snapshot.record setup s.faults c span).length)) = true ↔
      (Snapshot.record setup s.faults c span).length = maxFaults
    have hhalted := h.halted_iff
    rw [hrecord, List.length_take, List.length_append, List.length_singleton, Bool.or_eq_true, decide_eq_true_iff,
      hhalted]
    omega

namespace Traced

/-- Names, counters and looks do not count. -/
theorem same (hpos : t.pos = s.pos) (hconsumed : t.consumed = s.consumed) (hfaults : t.faults = s.faults)
    (hhalted : t.halted = s.halted) : Traced setup s [] t :=
  ⟨hpos ▸ .done _, hconsumed, fun _ hfair => .same hfair hfaults hhalted⟩

theorem refl (s : Snapshot) : Traced setup s [] s := same rfl rfl rfl rfl

theorem trans (h : Traced setup s es u) (h' : Traced setup u es' t) : Traced setup s (es ++ es') t := by
  refine ⟨h.covers.append h'.covers, ?_, fun hlive hfair => ?_⟩
  · rw [h'.consumed, h.consumed, tokensOf_append, List.reverse_append, List.append_assoc]
  · rw [faultsOf_append]
    have hfirst := h.tally hlive hfair
    exact hfirst.trans (h'.tally hlive hfirst.fair)

theorem moveTo {pos : Nat} (h : Gap setup.src s.pos pos) : Traced setup s [] (s.moveTo pos) :=
  ⟨.blank h (.done _), rfl, fun _ hfair => .same hfair rfl rfl⟩

theorem shift (hgap : Gap setup.src s.pos tok.start) (hlt : tok.start < tok.stop) :
    Traced setup s [.token tok] (s.shift tok) :=
  ⟨.blank hgap (.event rfl hlt (.done _)), rfl, fun _ hfair => .same hfair rfl rfl⟩

theorem advance (hstart : tok.start = s.pos) (hlt : s.pos < tok.stop) :
    Traced setup s [.token tok] (s.advance tok) := by
  have hspan : (Event.token tok).span = ⟨s.pos, tok.stop⟩ := congrArg (fun p : Nat => Span.mk p tok.stop) hstart
  exact ⟨.event hspan hlt (.done _), rfl, fun _ hfair => .same hfair rfl rfl⟩

theorem complain (c : Complaint) {span : Span} (hspan : span.stop = span.start) :
    Traced setup s [.fault (faultNode setup c span)] (s.complain setup c span) :=
  ⟨.point hspan (.done _), rfl, fun _ hfair => .complain hfair c span⟩

theorem leaveOut (c : Complaint) {start stop : Nat} (hgap : Gap setup.src s.pos start) (hlt : start < stop) :
    Traced setup s [.fault (faultNode setup c ⟨start, stop⟩)] ((s.moveTo stop).complain setup c ⟨start, stop⟩) := by
  refine ⟨.blank hgap (.event rfl hlt (.done _)), rfl, fun _ hfair => ?_⟩
  have hmoved : (s.moveTo stop).Fair := ⟨hfair.length_le, hfair.halted_iff⟩
  have htally : Tally setup (s.moveTo stop) [faultNode setup c ⟨start, stop⟩]
      ((s.moveTo stop).complain setup c ⟨start, stop⟩) := .complain hmoved c ⟨start, stop⟩
  exact ⟨htally.fair, htally.faults_eq⟩

theorem skip (s : Snapshot) (c : Complaint) :
    Traced setup s [.fault (faultNode setup c (s.junk setup))] (s.skip setup c) := by
  have hgap := Gap.skipBlank setup.src s.pos (s.parens == 0)
  rw [← skipRange_fst] at hgap
  obtain ⟨n, hrange, -⟩ := skipRange_eq setup.src s.pos s.parens
  have hle : (skipRange setup.src s.pos s.parens).1 ≤ (skipRange setup.src s.pos s.parens).2 := by
    rw [hrange]
    exact Nat.le_add_right ..
  rcases Nat.lt_or_eq_of_le hle with hlt | heq
  · exact .leaveOut c hgap hlt
  · have hspan : (s.junk setup).stop = (s.junk setup).start := congrArg Int.ofNat heq.symm
    exact (moveTo (heq ▸ hgap)).trans (complain c hspan)

end Traced

/-! ## Looks -/

theorem Looks.gap {accept : KindSet} (h : Looks setup exact s accept tok) (hk : tok.kind ≠ .eof) :
    Gap setup.src s.pos tok.start := by
  rw [(h.stands hk).start_eq]
  exact .skipBlank ..

theorem Looks.traced {accept : KindSet} (h : Looks setup exact s accept tok) (hk : tok.kind ≠ .eof) :
    Traced setup s [.token tok] (s.shift tok) :=
  .shift (h.gap hk) (h.stands hk).lt

theorem Held.traced (h : Held setup exact s tok) (hk : tok.kind ≠ .eof) :
    Traced setup s [.token tok] (s.shift tok) := by
  obtain ⟨accept, hlook⟩ := h.looks
  exact hlook.traced hk

/-! ## Productions without recursion -/

theorem Traced.here (s : Snapshot) (c : Complaint) :
    Traced setup s [.fault (faultNode setup c (s.here setup))] (s.complain setup c (s.here setup)) :=
  .complain c rfl

theorem Expects.traced {accept : KindSet} {k : Token.Kind} {leaf : Kind} {c : Complaint} {node : Node}
    (hk : k ≠ .eof) (hleaf : leaf ≠ .error) (h : Expects setup exact s accept k leaf c node t) :
    ∃ es, Traced setup s es t ∧ node.errors = faultsOf es := by
  cases h with
  | found hlook hkind => exact ⟨_, hlook.traced (hkind.symm ▸ hk), errors_leaf hleaf _⟩
  | absent => exact ⟨_, .here s c, errors_faultNode ..⟩

theorem Colon.traced {node : Node} (h : Colon setup exact s node t) :
    ∃ es, Traced setup s es t ∧ node.errors = faultsOf es :=
  Expects.traced Token.Kind.noConfusion Kind.noConfusion h

theorem EndStatement.traced {stop : KindSet} {junk : Option Node} (h : EndStatement setup exact s stop junk t) :
    ∃ es, Traced setup s es t ∧ junk.toList.flatMap errors = faultsOf es := by
  cases h with
  | clean => exact ⟨[], .refl s, rfl⟩
  | junk => exact ⟨_, .skip s _, List.flatMap_singleton .. ▸ errors_faultNode ..⟩

theorem CloseBody.traced {node whole : Node} {block : Bool} (hnode : node.kind ≠ .error)
    (h : CloseBody setup exact s node block whole t) :
    ∃ es, Traced setup s es t ∧ whole.errors = node.errors ++ faultsOf es := by
  cases h with
  | closed hlook hk =>
    refine ⟨_, hlook.traced (tok_ne hk Token.Kind.noConfusion), ?_⟩
    rw [errors_push hnode, errors_leaf Kind.noConfusion]
    rfl
  | missing =>
    refine ⟨_, .here s _, ?_⟩
    rw [errors_push hnode, errors_faultNode]
    rfl
  | without => exact ⟨[], .refl s, (List.append_nil _).symm⟩

theorem Looks.traced_pastDot {dot : Token} (h : Looks setup exact s (.of [.dot]) dot) :
    ∃ es, Traced setup s es (s.pastDot dot) ∧ faultsOf es = [] := by
  rw [Snapshot.pastDot]
  split
  · rename_i hk
    exact ⟨_, h.traced (tok_ne hk Token.Kind.noConfusion), rfl⟩
  · exact ⟨[], .refl s, rfl⟩

theorem DotGet.traced {node : Node} (hheld : Held setup exact s tok) (hk : tok.kind ≠ .eof)
    (h : DotGet setup exact s tok node t) : ∃ es, Traced setup s es t ∧ node.errors = faultsOf es := by
  have hfirst := hheld.traced hk
  cases h with
  | found hdot hprop hkind =>
    obtain ⟨es, hes, hnone⟩ := hdot.traced_pastDot
    refine ⟨_, (hfirst.trans hes).trans (hprop.traced (tok_ne hkind Token.Kind.noConfusion)), ?_⟩
    simp [hnone]
  | absent hdot hprop =>
    obtain ⟨es, hes, hnone⟩ := hdot.traced_pastDot
    refine ⟨_, (hfirst.trans hes).trans (.here _ _), ?_⟩
    simp [hnone]

theorem Params.traced {node list : Node} (h : Params setup exact s node list t) (hnode : node.kind ≠ .error) :
    list.kind ≠ .error ∧ ∃ es, Traced setup s es t ∧ list.errors = node.errors ++ faultsOf es := by
  induction h with
  | name hlook hk _ ih =>
    obtain ⟨hlist, es, hes, herrors⟩ := ih hnode
    refine ⟨hlist, _, (hlook.traced (tok_ne hk Token.Kind.noConfusion)).trans hes, ?_⟩
    rw [herrors, errors_push hnode, errors_leaf Kind.noConfusion, List.append_nil]
    rfl
  | @bad s t node list tok hlook hk _ ih =>
    obtain ⟨hlist, es, hes, herrors⟩ := ih hnode
    have hne : tok.kind ≠ .eof := tok_ne hk Token.Kind.noConfusion
    have hbad : Traced setup s [.fault (faultNode setup (.badParameter tok) tok.span)]
        ((s.complain setup (.badParameter tok) tok.span).moveTo tok.stop) :=
      .leaveOut _ (hlook.gap hne) (hlook.stands hne).lt
    refine ⟨hlist, _, hbad.trans hes, ?_⟩
    rw [herrors, errors_push hnode, errors_faultNode, List.append_assoc]
    rfl
  | done => exact ⟨hnode, [], .refl _, (List.append_nil _).symm⟩

theorem CloseParen.traced {node whole : Node} (hnode : node.kind ≠ .error)
    (h : CloseParen setup exact s node whole t) :
    ∃ es, Traced setup s es t ∧ whole.errors = node.errors ++ faultsOf es := by
  cases h with
  | closed hlook hk =>
    refine ⟨_, hlook.traced (tok_ne hk Token.Kind.noConfusion), ?_⟩
    exact (errors_span hnode _).trans (List.append_nil _).symm
  | missing =>
    refine ⟨_, .here s _, ?_⟩
    rw [errors_push hnode, errors_faultNode]
    rfl

theorem Junk.traced {node whole : Node} (h : Junk setup exact s node whole t) (hnode : node.kind ≠ .error) :
    whole.kind ≠ .error ∧ ∃ es, Traced setup s es t ∧ whole.errors = node.errors ++ faultsOf es := by
  induction h with
  | done => exact ⟨hnode, [], .refl _, (List.append_nil _).symm⟩
  | more _ _ _ ih =>
    obtain ⟨hwhole, es, hes, herrors⟩ := ih hnode
    refine ⟨hwhole, _, (Traced.skip _ _).trans hes, ?_⟩
    rw [herrors, errors_push hnode, errors_faultNode, List.append_assoc]
    rfl

end

/-! ## Productions -/

/-- The error nodes of an answer. An attempt that is given up answers nothing. -/
def Production.errors : (p : Production) → p.Answer → Option (List Node)
  | .statements _, stmts => some (stmts.flatMap Node.errors)
  | .body _, (stmts, _) => some (stmts.flatMap Node.errors)
  | .inlineBody _, stmts => some (stmts.flatMap Node.errors)
  | .inlineRest _, rest => rest.map (·.flatMap Node.errors)
  | .operators _ left, more => some (more.getD left).errors
  | .statement, node | .assign _, node | .functionDef _, node | .ifExpr _, node | .branches _ _ _, node
  | .expression, node | .stages _ _, node | .binary _ _, node | .operand _ _, node | .operandBody _ _, node
  | .call _, node | .args _ _, node | .arg _, node | .parenBody _, node | .stringPieces _ _, node
  | .wordPieces _, node | .piece _, node => some node.errors

/-- The error nodes that a production was given. -/
def Production.before : Production → List Node
  | .branches node _ _ | .stages node _ | .operators _ node | .call node | .args node _ | .stringPieces _ node
  | .wordPieces node => node.errors
  | _ => []

/-- What a production adds children to is no error node. -/
def Production.Sane : Production → Prop
  | .branches node _ _ | .stages node _ | .args node _ | .stringPieces _ node | .wordPieces node => ¬ node.kind = .error
  | _ => True

/-- The events between two snapshots, with the error nodes that an answer adds. -/
def Production.Makes (setup : Setup) (p : Production) (s : Snapshot) (a : p.Answer) (t : Snapshot) : Prop :=
  p.Sane → ∀ ns, p.errors a = some ns → ∃ es, Traced setup s es t ∧ ns = p.before ++ faultsOf es

variable {setup : Setup} {exact : Prop}

@[simp] theorem errors_blockNode (pos : Nat) (stmts : List Node) :
    (blockNode pos stmts).errors = stmts.flatMap Node.errors := by
  rw [blockNode]
  cases stmts with
  | nil => rfl
  | cons stmt stmts => exact errors_branch Kind.noConfusion _

@[simp] theorem errors_loneName (names : Scope.Names) (id : Node) : (loneName setup names id).errors = id.errors := by
  have hkind (b : Bool) : ¬ (if b then Kind.functionCall else .callOrIdentifier) = Kind.error := by
    cases b <;> exact Kind.noConfusion
  rw [loneName, errors_branch (hkind _), List.flatMap_singleton]

theorem errors_paramList {list : Node} (h : ¬ list.kind = .error) (pos : Nat) :
    (paramList list pos).errors = list.errors := by
  rw [paramList]
  split
  · exact errors_span h _
  · rfl

theorem operatorNode_ne_error (prec : Nat) : ¬ operatorNode prec = .error := by
  rw [operatorNode]
  split <;> exact Kind.noConfusion

theorem stringPiece_at {src : Text} {pos quote : Nat} (hk : (Token.stringPiece src pos quote).kind ≠ .eof) :
    (Token.stringPiece src pos quote).start = pos ∧ pos < (Token.stringPiece src pos quote).stop := by
  refine ⟨?_, (stringPiece_stop hk).1⟩
  rcases Token.stringPiece_cases src pos quote with ⟨h, -⟩ | ⟨width, h, -⟩ | h
  · rw [h] at hk
    exact absurd rfl hk
  · rw [h]
    rfl
  · exact h.start_eq

theorem length_le_of_stringPiece {src : Text} {pos quote : Nat} (hk : (Token.stringPiece src pos quote).kind = .eof) :
    src.length ≤ pos := by
  rcases Token.stringPiece_cases src pos quote with ⟨-, h⟩ | ⟨width, h, -⟩ | h
  · exact h
  · rw [h] at hk
    cases hk
  · have hkind := h.kind_mem
    rw [hk] at hkind
    exact absurd hkind (by decide)

theorem wordPiece_at {src : Text} {pos : Nat} (hk : (Token.wordPiece src pos).kind ≠ .fragmentEnd) :
    (Token.wordPiece src pos).start = pos ∧ pos < (Token.wordPiece src pos).stop := by
  refine ⟨?_, (wordPiece_stop hk).1⟩
  rcases Token.wordPiece_cases src pos with h | h
  · rw [h] at hk
    exact absurd rfl hk
  · exact h.start_eq

/-- What is read is accounted for, and the error nodes of the answer are those made on the way. -/
theorem Reads.traced {p : Production} {s t : Snapshot} {a : p.Answer} (h : Reads setup exact p s a t) :
    p.Makes setup s a t := by
  induction h with
  | halted =>
    rintro - _ ⟨⟩
    exact ⟨[], .refl _, rfl⟩
  | @off s stop _ hoff =>
    rintro - _ ⟨⟩
    -- A live parse is not called off.
    refine ⟨[], ⟨.done _, rfl, fun hlive => ?_⟩, rfl⟩
    rw [hlive s.looks] at hoff
    cases hoff
  | noMore =>
    rintro - _ ⟨⟩
    exact ⟨[], .same rfl rfl rfl rfl, rfl⟩
  | @separator s t stop tok stmts _ _ hlook hends hk _ ih =>
    rintro - _ ⟨⟩
    obtain ⟨es, hes, herrors⟩ := ih trivial _ rfl
    have hcount : Traced setup s [] s.count := .same rfl rfl rfl rfl
    exact ⟨_, (hcount.trans (hlook.traced fun heof => hends (.inl heof))).trans hes, herrors⟩
  | @next s s₁ s₂ t stop tok stmt junk stmts _ _ hlook _ _ _ hjunk _ ihstmt ihrest =>
    rintro - _ ⟨⟩
    obtain ⟨es, hes, hstmt⟩ := ihstmt trivial _ rfl
    obtain ⟨es', hes', hjunk⟩ := hjunk.traced
    obtain ⟨es'', hes'', hrest⟩ := ihrest trivial _ rfl
    have hcount : Traced setup s [] s.count := .same rfl rfl rfl rfl
    refine ⟨_, ((hcount.trans hes).trans hes').trans hes'', ?_⟩
    simp [hstmt, hjunk, hrest, Production.before]
  | assignment _ _ _ ih | evaluate _ _ _ _ ih | function _ _ ih | conditional _ _ ih => exact ih
  | noStatement =>
    rintro - _ ⟨⟩
    exact ⟨_, .skip _ _, errors_faultNode ..⟩
  | assign hheld hk hop _ ih =>
    rintro - _ ⟨⟩
    obtain ⟨es, hes, hop⟩ := hop.traced Token.Kind.noConfusion Kind.noConfusion
    obtain ⟨es', hes', hvalue⟩ := ih trivial _ rfl
    have htok := hheld.traced (tok_ne hk Token.Kind.noConfusion)
    refine ⟨_, ((htok.trans hes).trans hes').trans (.same rfl rfl rfl rfl), ?_⟩
    simp [hop, hvalue, Production.before]
  | @block s _ _ _ _ _ _ _ ih | @inlined s _ _ _ _ _ _ _ _ ih =>
    rintro - _ ⟨⟩
    obtain ⟨es, hes, hstmts⟩ := ih trivial _ rfl
    have hflat : Traced setup s [] (s.withParens 0) := .same rfl rfl rfl rfl
    refine ⟨_, (hflat.trans hes).trans (.same rfl rfl rfl rfl), ?_⟩
    simp [hstmts, Production.before]
  | noBody =>
    rintro - _ ⟨⟩
    exact ⟨[], .same rfl rfl rfl rfl, rfl⟩
  | several _ _ ihfirst ihrest =>
    rintro - _ ⟨⟩
    obtain ⟨es, hes, hfirst⟩ := ihfirst trivial _ rfl
    obtain ⟨es', hes', hrest⟩ := ihrest trivial _ rfl
    refine ⟨_, hes.trans hes', ?_⟩
    simp [hfirst, hrest, Production.before]
  | single _ _ ihfirst _ =>
    rintro - _ ⟨⟩
    -- What the attempt did is undone.
    obtain ⟨es, hes, hfirst⟩ := ihfirst trivial _ rfl
    refine ⟨_, hes.trans (.same rfl rfl rfl rfl), ?_⟩
    simp [hfirst, Production.before]
  | restClosed =>
    rintro - _ ⟨⟩
    exact ⟨[], .refl _, rfl⟩
  | restOpen | restOpenNext =>
    rintro - _ ⟨⟩
  | restClosedNext hlook _ hk =>
    rintro - _ ⟨⟩
    exact ⟨_, hlook.traced (tok_ne hk Token.Kind.noConfusion), rfl⟩
  | @restMore _ _ _ _ _ _ _ rest hlook _ hk _ _ _ _ _ ihstmt ihrest =>
    intro _ ns hns
    cases rest with
    | none => cases hns
    | some rest =>
      cases hns
      obtain ⟨es, hes, hstmt⟩ := ihstmt trivial _ rfl
      obtain ⟨es', hes', hrest⟩ := ihrest trivial _ rfl
      refine ⟨_, ((hlook.traced (tok_ne hk Token.Kind.noConfusion)).trans hes).trans hes', ?_⟩
      simp [hstmt, hrest, Production.before]
  | @functionDef s s₁ _ _ _ tok _ _ _ _ _ hheld hk hparams hcolon _ hclose ih =>
    rintro - _ ⟨⟩
    obtain ⟨hlist, es, hes, hparams⟩ := hparams.traced Kind.noConfusion
    obtain ⟨es', hes', hcolon⟩ := hcolon.traced
    obtain ⟨es'', hes'', hstmts⟩ := ih trivial _ rfl
    obtain ⟨es₃, hes₃, hwhole⟩ := hclose.traced (by simp)
    have htok := hheld.traced (tok_ne hk Token.Kind.noConfusion)
    have henter : Traced setup s₁ [] (s₁.reduce .params) := .same rfl rfl rfl rfl
    refine ⟨_, ((((htok.trans hes).trans henter).trans hes').trans (hes''.trans hes₃)).trans (.same rfl rfl rfl rfl), ?_⟩
    have hempty : ({ kind := .params, span := .zero } : Node).errors = [] := rfl
    simp [hwhole, errors_paramList hlist, hparams, hempty, hcolon, hstmts, Production.before]
  | ifExpr hheld hk _ hcolon _ _ ihcondition ihbody ihbranches =>
    rintro - _ ⟨⟩
    obtain ⟨es, hes, hcondition⟩ := ihcondition trivial _ rfl
    obtain ⟨es', hes', hcolon⟩ := hcolon.traced
    obtain ⟨es'', hes'', hstmts⟩ := ihbody trivial _ rfl
    obtain ⟨es₃, hes₃, hwhole⟩ := ihbranches (by simp [Production.Sane]) _ rfl
    have htok := hheld.traced (tok_ne hk Token.Kind.noConfusion)
    refine ⟨_, ((htok.trans hes).trans hes').trans (hes''.trans hes₃), ?_⟩
    simp [hwhole, hcondition, hcolon, hstmts, Production.before]
  | elsif hlook hk _ hcolon _ _ ihcondition ihbody ihbranches =>
    rintro hnode _ ⟨⟩
    have hnode : ¬ Node.kind _ = Kind.error := hnode
    obtain ⟨es, hes, hcondition⟩ := ihcondition trivial _ rfl
    obtain ⟨es', hes', hcolon⟩ := hcolon.traced
    obtain ⟨es'', hes'', hstmts⟩ := ihbody trivial _ rfl
    obtain ⟨es₃, hes₃, hwhole⟩ := ihbranches hnode _ rfl
    have htok := hlook.traced (tok_ne hk Token.Kind.noConfusion)
    refine ⟨_, ((htok.trans hes).trans hes').trans (hes''.trans hes₃), ?_⟩
    simp [hwhole, hnode, hcondition, hcolon, hstmts, Production.before]
  | otherwise hlook hk hcolon _ _ ihbody ihbranches =>
    rintro hnode _ ⟨⟩
    have hnode : ¬ Node.kind _ = Kind.error := hnode
    obtain ⟨es', hes', hcolon⟩ := hcolon.traced
    obtain ⟨es'', hes'', hstmts⟩ := ihbody trivial _ rfl
    obtain ⟨es₃, hes₃, hwhole⟩ := ihbranches hnode _ rfl
    have htok := hlook.traced (tok_ne hk Token.Kind.noConfusion)
    refine ⟨_, (htok.trans hes').trans (hes''.trans hes₃), ?_⟩
    simp [hwhole, hnode, hcolon, hstmts, Production.before]
  | endIf _ _ _ hclose =>
    rintro hnode _ ⟨⟩
    exact hclose.traced hnode
  | pipe _ _ _ _ ihleft ihstages =>
    rintro - _ ⟨⟩
    obtain ⟨es, hes, hleft⟩ := ihleft trivial _ rfl
    obtain ⟨es', hes', hwhole⟩ := ihstages (by simp [Production.Sane]) _ rfl
    refine ⟨_, hes.trans hes', ?_⟩
    simp [hwhole, hleft, Production.before]
  | alone _ _ _ ih => exact ih
  | stage hheld hkind _ _ _ _ ihvalue ihrest =>
    rintro hnode _ ⟨⟩
    have hnode : ¬ Node.kind _ = Kind.error := hnode
    obtain ⟨es, hes, hvalue⟩ := ihvalue trivial _ rfl
    obtain ⟨es', hes', hwhole⟩ := ihrest hnode _ rfl
    refine ⟨_, ((hheld.traced (tok_ne hkind Token.Kind.noConfusion)).trans hes).trans hes', ?_⟩
    simp [hwhole, hnode, hvalue, Production.before]
  | lastStage hheld hkind _ _ _ ih =>
    rintro hnode _ ⟨⟩
    have hnode : ¬ Node.kind _ = Kind.error := hnode
    obtain ⟨es, hes, hvalue⟩ := ih trivial _ rfl
    refine ⟨_, (hheld.traced (tok_ne hkind Token.Kind.noConfusion)).trans hes, ?_⟩
    simp [hnode, hvalue, Production.before]
  | operation _ _ _ ihleft ihops | lone _ _ _ _ ihleft ihops | justOperand _ _ _ _ ihleft ihops =>
    rintro - _ ⟨⟩
    obtain ⟨es, hes, hleft⟩ := ihleft trivial _ rfl
    obtain ⟨es', hes', hwhole⟩ := ihops trivial _ rfl
    refine ⟨_, hes.trans hes', ?_⟩
    simpa [Production.before, hleft] using hwhole
  | noOperator =>
    rintro - _ ⟨⟩
    exact ⟨[], .refl _, (List.append_nil _).symm⟩
  | @operator _ _ _ tok _ left right more hlook hprec _ _ ihright ihmore =>
    rintro - _ ⟨⟩
    obtain ⟨es, hes, hright⟩ := ihright trivial _ rfl
    obtain ⟨es', hes', hmore⟩ := ihmore trivial _ rfl
    have hne : tok.kind ≠ .eof := by
      intro heof
      rw [heof] at hprec
      exact hprec (.inl rfl)
    refine ⟨_, ((hlook.traced hne).trans hes).trans hes', ?_⟩
    have hnode := errors_branch (operatorNode_ne_error (precedence tok.kind)) [left, .leaf .operator tok, right]
    simpa [Production.before, hnode, hright] using hmore
  | tooDeep =>
    rintro - _ ⟨⟩
    exact ⟨_, .skip _ _, errors_faultNode ..⟩
  | @operand s _ _ _ _ _ _ _ ih =>
    rintro - _ ⟨⟩
    obtain ⟨es, hes, hnode⟩ := ih trivial _ rfl
    have hdeep : Traced setup s [] s.deepen := .same rfl rfl rfl rfl
    refine ⟨_, (hdeep.trans hes).trans (.same rfl rfl rfl rfl), ?_⟩
    simp [hnode, Production.before]
  | @literal _ tok _ kind hheld hk =>
    rintro - _ ⟨⟩
    refine ⟨_, hheld.traced (literalKind?_ne_eof hk), errors_leaf ?_ _⟩
    rintro rfl
    revert hk
    cases tok.kind <;> exact nofun
  | string hheld hk _ ih =>
    rintro - _ ⟨⟩
    obtain ⟨es, hes, hnode⟩ := ih Kind.noConfusion _ rfl
    exact ⟨_, (hheld.traced (tok_ne hk Token.Kind.noConfusion)).trans hes, hnode⟩
  | callee hheld hk _ ih | group hheld hk _ ih =>
    rintro - _ ⟨⟩
    obtain ⟨es, hes, hnode⟩ := ih trivial _ rfl
    exact ⟨_, (hheld.traced (tok_ne hk Token.Kind.noConfusion)).trans hes, hnode⟩
  | word hheld hk _ ih =>
    rintro - _ ⟨⟩
    obtain ⟨es, hes, hnode⟩ := ih Kind.noConfusion _ rfl
    obtain ⟨accept, hlook⟩ := hheld.looks
    exact ⟨_, (Traced.moveTo (hlook.gap (tok_ne hk Token.Kind.noConfusion))).trans hes, hnode⟩
  | name hheld hk =>
    rintro - _ ⟨⟩
    exact ⟨_, hheld.traced (tok_ne hk Token.Kind.noConfusion), rfl⟩
  | dotGet hheld hk h =>
    rintro - _ ⟨⟩
    exact h.traced hheld (tok_ne hk Token.Kind.noConfusion)
  | noOperand =>
    rintro - _ ⟨⟩
    exact ⟨_, .here _ _, errors_faultNode ..⟩
  | @badOperand s tok _ hheld _ hk =>
    rintro - _ ⟨⟩
    have hne : tok.kind ≠ .eof := by
      intro heof
      rw [heof] at hk
      cases hk
    obtain ⟨accept, hlook⟩ := hheld.looks
    exact ⟨_, .leaveOut _ (hlook.gap hne) (hlook.stands hne).lt, errors_faultNode ..⟩
  | glued | noArgs =>
    rintro - _ ⟨⟩
    exact ⟨[], .refl _, (List.append_nil _).symm⟩
  | withArgs _ _ _ _ ih =>
    rintro - _ ⟨⟩
    obtain ⟨es, hes, hnode⟩ := ih Kind.noConfusion _ rfl
    refine ⟨es, hes, ?_⟩
    simp [hnode, Production.before]
  | moreArgs _ _ _ _ iharg ihrest =>
    rintro hnode _ ⟨⟩
    have hnode : ¬ Node.kind _ = Kind.error := hnode
    obtain ⟨es, hes, harg⟩ := iharg trivial _ rfl
    obtain ⟨es', hes', hwhole⟩ := ihrest hnode _ rfl
    refine ⟨_, hes.trans hes', ?_⟩
    simp [hwhole, hnode, harg, Production.before]
  | lastArg _ _ _ ih =>
    rintro hnode _ ⟨⟩
    have hnode : ¬ Node.kind _ = Kind.error := hnode
    obtain ⟨es, hes, harg⟩ := ih trivial _ rfl
    refine ⟨es, hes, ?_⟩
    simp [hnode, harg, Production.before]
  | positional _ _ ih =>
    rintro - _ ⟨⟩
    obtain ⟨es, hes, hvalue⟩ := ih trivial _ rfl
    refine ⟨es, hes, ?_⟩
    simp [hvalue, Production.before]
  | named hheld hk _ _ _ ih =>
    rintro - _ ⟨⟩
    obtain ⟨es, hes, hvalue⟩ := ih trivial _ rfl
    refine ⟨_, (hheld.traced (tok_ne hk Token.Kind.noConfusion)).trans hes, ?_⟩
    simp [hvalue, Production.before]
  | noValue hheld hk =>
    rintro - _ ⟨⟩
    refine ⟨_, (hheld.traced (tok_ne hk Token.Kind.noConfusion)).trans (.here _ _), ?_⟩
    simp [Production.before]
  | @emptyGroup s _ _ _ _ _ _ hclose =>
    rintro - _ ⟨⟩
    obtain ⟨es, hes, hnode⟩ := hclose.traced Kind.noConfusion
    have henter : Traced setup s [] s.enter := .same rfl rfl rfl rfl
    have hempty (opening : Span) : ({ kind := .parenExpr, span := opening } : Node).errors = [] := rfl
    refine ⟨_, (henter.trans hes).trans (.same rfl rfl rfl rfl), ?_⟩
    simp [hnode, hempty, Production.before]
  | @fullGroup s _ _ _ _ _ _ _ _ _ _ _ hjunk hclose ih =>
    rintro - _ ⟨⟩
    obtain ⟨es, hes, hvalue⟩ := ih trivial _ rfl
    obtain ⟨hinner, es', hes', hjunk⟩ := hjunk.traced Kind.noConfusion
    obtain ⟨es'', hes'', hnode⟩ := hclose.traced hinner
    have henter : Traced setup s [] s.enter := .same rfl rfl rfl rfl
    have hempty (opening : Span) : ({ kind := .parenExpr, span := opening } : Node).errors = [] := rfl
    refine ⟨_, ((henter.trans hes).trans (hes'.trans hes'')).trans (.same rfl rfl rfl rfl), ?_⟩
    simp [hnode, hjunk, hvalue, hempty, Production.before]
  | closeQuote hk =>
    rintro hnode _ ⟨⟩
    have hnode : ¬ Node.kind _ = Kind.error := hnode
    have hpiece := stringPiece_at (tok_ne hk Token.Kind.noConfusion)
    refine ⟨_, .advance hpiece.1 hpiece.2, ?_⟩
    exact (errors_span hnode _).trans (List.append_nil _).symm
  | @unterminated s quote node hpos hk =>
    rintro hnode _ ⟨⟩
    have hnode : ¬ node.kind = Kind.error := hnode
    have hover := length_le_of_stringPiece hk
    refine ⟨_, (Traced.complain .unterminatedString rfl).trans (.moveTo ⟨hpos, fun i hlow hhigh => ?_⟩), ?_⟩
    · change s.pos ≤ i at hlow
      omega
    · simp [hnode, Production.before]
  | stringText hk _ ih =>
    rintro hnode _ ⟨⟩
    have hnode : ¬ Node.kind _ = Kind.error := hnode
    have hpiece := stringPiece_at (tok_ne hk Token.Kind.noConfusion)
    obtain ⟨es, hes, hwhole⟩ := ih hnode _ rfl
    refine ⟨_, (Traced.advance hpiece.1 hpiece.2).trans hes, ?_⟩
    simp [hwhole, hnode, Production.before]
  | stringPart _ _ ihpiece ih | wordPart _ _ ihpiece ih =>
    rintro hnode _ ⟨⟩
    have hnode : ¬ Node.kind _ = Kind.error := hnode
    obtain ⟨es, hes, hpart⟩ := ihpiece trivial _ rfl
    obtain ⟨es', hes', hwhole⟩ := ih hnode _ rfl
    refine ⟨_, hes.trans hes', ?_⟩
    simp [hwhole, hnode, hpart, Production.before]
  | endWord =>
    rintro - _ ⟨⟩
    exact ⟨[], .refl _, (List.append_nil _).symm⟩
  | wordText hk _ ih =>
    rintro hnode _ ⟨⟩
    have hnode : ¬ Node.kind _ = Kind.error := hnode
    have hpiece := wordPiece_at (tok_ne hk Token.Kind.noConfusion)
    obtain ⟨es, hes, hwhole⟩ := ih hnode _ rfl
    refine ⟨_, (Traced.advance hpiece.1 hpiece.2).trans hes, ?_⟩
    simp [hwhole, hnode, Production.before]
  | escape hpiece | interpolatedName hpiece =>
    rintro - _ ⟨⟩
    exact ⟨_, .advance hpiece.start_eq hpiece.lt, rfl⟩
  | interpolated hpiece _ _ ih =>
    rintro - _ ⟨⟩
    obtain ⟨es, hes, hparen⟩ := ih trivial _ rfl
    refine ⟨_, (Traced.advance hpiece.start_eq hpiece.lt).trans hes, ?_⟩
    rw [errors_of_kind Kind.noConfusion]
    simp [hparen, Production.before]

end Grammar
end Bareword.Tree
