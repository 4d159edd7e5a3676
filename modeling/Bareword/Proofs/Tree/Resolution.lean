import Bareword.Proofs.Tree.Marks

/-! # What is bound while names are used

Productions bind names where a walk over what they answer does, so a property access has a base that is
bound there, and a word does not start with a bound name and a dot.

* `Marked`: the places between two snapshots, with what they do to the names.
* `Made`, `Grown`, `Enlarged`: nodes that are read, from the start, up to now, and further.
* `Reads.marked`: what every production reads and answers.
-/

namespace Bareword.Tree.Grammar
set_option autoImplicit false
open Scope.Arena (dropTop)
open Token (KindSet)
open Report (SyntaxFault)
open Parsing
open Node

@[simp] theorem marks_faultNode (setup : Setup) (c : Complaint) (span : Span) : (faultNode setup c span).marks = [] :=
  marks_of_isPlain rfl

/-! ## Snapshots -/

section
variable {setup : Setup} {s t u : Snapshot} {ms ms' : List Mark} {n c : Node} {cs : List Node} {tok : Token}

/-- The places between two snapshots, where no parameters are read, do to the names what they should. -/
structure Marked (setup : Setup) (s : Snapshot) (ms : List Mark) (t : Snapshot) : Prop where
  lies : Lies setup.src s.pos ms t.pos
  settles : s.names.paramStart = none →
    t.names = { s.names with bound := Mark.applyAll s.names.bound ms } ∧ Settled setup.src s.names.bound ms

namespace Marked

theorem moves (hle : s.pos ≤ t.pos) (hnames : t.names = s.names) : Marked setup s [] t :=
  ⟨.nil hle, fun _ => ⟨hnames, trivial⟩⟩

theorem trans (h : Marked setup s ms u) (h' : Marked setup u ms' t) : Marked setup s (ms ++ ms') t := by
  refine ⟨h.lies.append h'.lies, fun hquiet => ?_⟩
  obtain ⟨hnames, hsettled⟩ := h.settles hquiet
  obtain ⟨hnames', hsettled'⟩ := h'.settles (by rw [hnames, hquiet])
  rw [hnames] at hnames' hsettled'
  refine ⟨?_, settled_append.mpr ⟨hsettled, hsettled'⟩⟩
  rw [hnames', Mark.applyAll_append]

end Marked

/-- From one snapshot to another a node is read. -/
structure Made (setup : Setup) (s : Snapshot) (n : Node) (t : Snapshot) : Prop where
  marked : Marked setup s n.marks t
  sits : Sits setup.src s.pos n n.marks t.pos

/-- From one snapshot to another nodes are read. -/
structure MadeAll (setup : Setup) (s : Snapshot) (cs : List Node) (t : Snapshot) : Prop where
  marked : Marked setup s (cs.flatMap marks) t
  sits : SitAll setup.src s.pos cs t.pos

/-- From one snapshot to another what is below a node is read; the node ends at `p` at the earliest. -/
structure Grown (setup : Setup) (p : Nat) (s : Snapshot) (n : Node) (t : Snapshot) : Prop where
  marked : Marked setup s n.inner t
  sits : Sits setup.src p n n.inner t.pos

namespace Made

theorem after (h : Marked setup s [] u) (h' : Made setup u n t) : Made setup s n t :=
  ⟨h.trans h'.marked, h'.sits.weaken h.lies.le (Nat.le_refl _)⟩

theorem before (h : Made setup s n u) (h' : Marked setup u [] t) : Made setup s n t := by
  have hmarked := h.marked.trans h'
  rw [List.append_nil] at hmarked
  exact ⟨hmarked, h.sits.weaken (Nat.le_refl _) h'.lies.le⟩

end Made

namespace MadeAll

theorem nil (h : Marked setup s [] t) : MadeAll setup s [] t := ⟨h, .nil h.lies.le⟩

theorem append {cs' : List Node} (h : MadeAll setup s cs u) (h' : MadeAll setup u cs' t) :
    MadeAll setup s (cs ++ cs') t := by
  refine ⟨?_, h.sits.append h'.sits⟩
  rw [List.flatMap_append]
  exact h.marked.trans h'.marked

theorem after (h : Marked setup s [] u) (h' : MadeAll setup u cs t) : MadeAll setup s cs t :=
  ⟨h.trans h'.marked, h'.sits.before h.lies.le⟩

theorem before (h : MadeAll setup s cs u) (h' : Marked setup u [] t) : MadeAll setup s cs t := by
  have happend := h.append (nil h')
  rwa [List.append_nil] at happend

theorem branch (h : MadeAll setup s (c :: cs) t) (kind : Kind) :
    Grown setup s.pos s (.branch kind (c :: cs)) t :=
  ⟨h.marked, h.sits.extent kind⟩

end MadeAll

theorem Made.cons (h : Made setup s c u) (h' : MadeAll setup u cs t) : MadeAll setup s (c :: cs) t :=
  ⟨h.marked.trans h'.marked, .cons h.sits h'.sits⟩

theorem Made.single (h : Made setup s c t) : MadeAll setup s [c] t := h.cons (.nil (.moves (Nat.le_refl _) rfl))

namespace Grown
variable {p : Nat}

theorem push (h : Grown setup p s n u) (hc : Made setup u c t) : Grown setup p s (n.push c) t := by
  refine ⟨?_, h.sits.push hc.sits⟩
  rw [inner_push]
  exact h.marked.trans hc.marked

theorem append (h : Grown setup p s n u) (hcs : MadeAll setup u cs t) : Grown setup p s (n.append cs) t := by
  refine ⟨?_, hcs.sits.push h.sits⟩
  rw [Node.inner, append_children, List.flatMap_append]
  exact h.marked.trans hcs.marked

theorem made (h : Grown setup s.pos s n t) (hk : n.kind.isPlain = true) : Made setup s n t := by
  have hmarks := marks_of_isPlain hk
  exact ⟨hmarks ▸ h.marked, hmarks ▸ h.sits⟩

theorem withStop (h : Grown setup p s n u) (hu : Marked setup u [] t) (hstop : u.pos < t.pos) :
    Grown setup p s { n with span := { n.span with stop := t.pos } } t := by
  have hmarked := h.marked.trans hu
  rw [List.append_nil] at hmarked
  have hle := h.sits.le
  refine ⟨hmarked, ⟨by omega, ?_, ?_, fun m hm => ?_⟩⟩
  · dsimp only
    omega
  · have hreach := le_reach setup.src t.pos
    dsimp only
    omega
  · have hinside := h.sits.inside m hm
    dsimp only
    omega

end Grown

/-- From one snapshot to another more is read below a node. -/
structure Enlarged (setup : Setup) (s : Snapshot) (n whole : Node) (t : Snapshot) : Prop where
  kind : whole.kind = n.kind
  grown : ∀ p s₀, Grown setup p s₀ n s → Grown setup p s₀ whole t

namespace Enlarged
variable {node whole : Node}

theorem refl (s : Snapshot) (n : Node) : Enlarged setup s n n s := ⟨rfl, fun _ _ => id⟩

theorem push (n : Node) (hc : Made setup s c t) : Enlarged setup s n (n.push c) t :=
  ⟨rfl, fun _ _ hn => hn.push hc⟩

theorem trans (h : Enlarged setup s n node u) (h' : Enlarged setup u node whole t) : Enlarged setup s n whole t :=
  ⟨h'.kind.trans h.kind, fun p s₀ hn => h'.grown p s₀ (h.grown p s₀ hn)⟩

theorem made {s₀ : Snapshot} (h : Enlarged setup s n whole t) (hn : Grown setup s₀.pos s₀ n s)
    (hk : n.kind.isPlain = true) : Made setup s₀ whole t :=
  (h.grown s₀.pos s₀ hn).made (h.kind ▸ hk)

end Enlarged

/-! ## Looks -/

variable {exact : Prop} {accept : KindSet}

/-- Tokens of other kinds are not noted among the names, unless parameters are read. -/
def isQuiet : Token.Kind → Bool
  | .eof | .kwFn | .assignable => false
  | _ => true

theorem shift_of_isQuiet {names : Scope.Names} {k : Token.Kind} (hk : isQuiet k = true)
    (h : names.paramStart = none) (text : Text) : names.shift k text = names := by
  cases k with
  | eof | kwFn | assignable => cases hk
  | identifier => exact if_neg (by simp [h])
  | _ => rfl

theorem ne_eof_of_isQuiet {k : Token.Kind} (hk : isQuiet k = true) : k ≠ .eof := by
  rintro rfl
  cases hk

theorem Looks.marked (h : Looks setup exact s accept tok) (hk : isQuiet tok.kind = true) :
    Marked setup s [] (s.shift tok) :=
  ⟨.nil (Nat.le_of_lt (h.lt_stop (ne_eof_of_isQuiet hk))), fun hquiet => ⟨shift_of_isQuiet hk hquiet tok.text, trivial⟩⟩

theorem sits_token {kind : Kind} (h : s.pos ≤ tok.stop) : Sits setup.src s.pos (.leaf kind tok) [] tok.stop :=
  ⟨h, Int.ofNat_le.mpr h, Int.ofNat_le.mpr (le_reach _ _), nofun⟩

theorem Looks.made (h : Looks setup exact s accept tok) (hk : isQuiet tok.kind = true) {k : Kind}
    (hplain : k.isPlain = true) : Made setup s (.leaf k tok) (s.shift tok) := by
  have hmarks := marks_leaf hplain tok
  exact ⟨hmarks ▸ h.marked hk, hmarks ▸ sits_token (Nat.le_of_lt (h.lt_stop (ne_eof_of_isQuiet hk)))⟩

/-! ## Productions without recursion -/

theorem Made.fault (c : Complaint) {span : Span} (hle : s.pos ≤ t.pos) (hnames : t.names = s.names)
    (hlow : (s.pos : Int) ≤ span.stop) (hhigh : span.stop ≤ reach setup.src t.pos) :
    Made setup s (faultNode setup c span) t := by
  refine ⟨?_, ?_⟩
  · rw [marks_faultNode]
    exact .moves hle hnames
  · rw [marks_faultNode]
    exact ⟨hle, hlow, hhigh, nofun⟩

theorem Made.here (s : Snapshot) (c : Complaint) :
    Made setup s (faultNode setup c (s.here setup)) (s.complain setup c (s.here setup)) := by
  refine .fault c (Nat.le_refl _) rfl ?_ ?_
  · exact Int.ofNat_le.mpr (Token.le_skipBlank _ _ _)
  · exact Int.ofNat_le.mpr (skipBlank_le_false _ _ _)

theorem Made.skip (s : Snapshot) (c : Complaint) :
    Made setup s (faultNode setup c (s.junk setup)) (s.skip setup c) := by
  have hle : s.pos ≤ (s.skip setup c).pos := (s.advances_skip c).le
  exact .fault c hle rfl (Int.ofNat_le.mpr hle) (Int.ofNat_le.mpr (le_reach _ _))

theorem Expects.made {k : Token.Kind} {kind : Kind} {c : Complaint} (hk : isQuiet k = true)
    (hplain : kind.isPlain = true) (h : Expects setup exact s accept k kind c n t) : Made setup s n t := by
  cases h with
  | found hlook hkind => exact hlook.made (hkind ▸ hk) hplain
  | absent => exact .here s c

theorem Colon.marks (h : Colon setup exact s n t) : n.marks = [] := by
  cases h with
  | found => exact marks_leaf rfl _
  | absent => exact marks_faultNode ..

theorem Colon.made (h : Colon setup exact s n t) : Made setup s n t := Expects.made rfl rfl h

theorem EndStatement.made {stop : KindSet} {junk : Option Node} (h : EndStatement setup exact s stop junk t) :
    MadeAll setup s junk.toList t := by
  cases h with
  | clean => exact .nil (.moves (Nat.le_refl _) rfl)
  | junk => exact (Made.skip s _).single

theorem CloseBody.enlarged {node whole : Node} {block : Bool} (h : CloseBody setup exact s node block whole t) :
    Enlarged setup s node whole t ∧ ∃ more, whole.children = node.children ++ more := by
  cases h with
  | closed hlook hk => exact ⟨.push node (hlook.made (hk ▸ rfl) rfl), _, rfl⟩
  | missing => exact ⟨.push node (.here s _), _, rfl⟩
  | without => exact ⟨.refl s node, [], (List.append_nil _).symm⟩

theorem CloseParen.enlarged {node whole : Node} (h : CloseParen setup exact s node whole t) :
    Enlarged setup s node whole t := by
  cases h with
  | @closed tok hlook hk =>
    have hquiet : isQuiet tok.kind = true := hk ▸ rfl
    exact ⟨rfl, fun p s₀ hn => hn.withStop (hlook.marked hquiet) (hlook.lt_stop (ne_eof_of_isQuiet hquiet))⟩
  | missing => exact .push node (.here s _)

theorem Junk.enlarged {node whole : Node} (h : Junk setup exact s node whole t) :
    Enlarged setup s node whole t := by
  induction h with
  | done => exact .refl _ _
  | more _ _ _ ih => exact (Enlarged.push _ (.skip _ _)).trans ih

/-! ## Names that are used -/

theorem Grown.fresh (s : Snapshot) {n : Node} (hinner : n.inner = []) (hstop : n.span.stop = s.pos) :
    Grown setup s.pos s n s := by
  have hreach := le_reach setup.src s.pos
  refine ⟨?_, ?_⟩
  · rw [hinner]
    exact .moves (Nat.le_refl _) rfl
  · rw [hinner]
    exact ⟨Nat.le_refl _, by omega, by omega, nofun⟩

theorem Grown.first (s : Snapshot) (tok : Token) (kind : Kind) {k : Kind} (hplain : k.isPlain = true) :
    Grown setup tok.stop (s.shift tok) (.branch kind [.leaf k tok]) (s.shift tok) := by
  refine .fresh (s.shift tok) ?_ rfl
  rw [inner_branch, List.flatMap_singleton, marks_leaf hplain]

theorem Looks.start_eq (h : Looks setup exact s accept tok) (hk : isQuiet tok.kind = true)
    (hline : tok.kind ≠ .newline) : tok.start = reach setup.src s.pos := by
  obtain ⟨bound, -, -, rfl⟩ := h
  exact Token.scan_start (ne_eof_of_isQuiet hk) hline

/-- A node that uses names is read from where the next token starts. -/
theorem Made.use {p start : Nat} (hstart : n.span.start = start) (hreach : start = reach setup.src s.pos)
    (hu : Marked setup s [] u) (h : Grown setup p u n t) (hp : start < p) (hle : start ≤ u.pos)
    (hopening : n.opening = [.use n]) (hclosing : n.closing = []) (hresolved : n.Resolved setup.src s.names.bound) :
    Made setup s n t := by
  have hmarks : n.marks = .use n :: n.inner := by
    rw [marks_eq, hopening, hclosing, List.append_nil]
    rfl
  have hmarked := hu.trans h.marked
  have hpos := hu.lies.le
  have hend := h.sits.le
  have hlow := h.sits.low
  refine ⟨⟨?_, fun hquiet => ?_⟩, ?_⟩
  · rw [hmarks]
    exact h.marked.lies.cons_use hpos (by omega) (by omega) (by omega)
  · rw [hmarks]
    obtain ⟨hnames, hsettled⟩ := hmarked.settles hquiet
    exact ⟨hnames, hresolved, hsettled⟩
  · rw [hmarks]
    have hreach := le_reach setup.src s.pos
    refine ⟨by omega, by omega, h.sits.high, fun m hm => ?_⟩
    rcases List.mem_cons.mp hm with heq | hm
    · cases heq
      omega
    · exact h.sits.inside m hm

/-- The base of a property access is bound. -/
theorem Held.bound_of_beforeDot (h : Held setup True s tok) (hk : tok.kind = .beforeDot) :
    shows s.names.bound tok.text = true := by
  obtain ⟨accept, -, bound, -, hbound, rfl⟩ := h
  rw [hbound trivial] at hk ⊢
  exact (Token.scanned ..).bound_of_beforeDot hk

/-- A word does not start with a bound name and a dot. -/
theorem Held.not_bound_of_word (h : Held setup True s tok) (hk : tok.kind = .word) {b rest : Text}
    (hb : Token.isName b = true) (hs : setup.src.drop tok.start = b ++ Text.byte '.' :: rest) :
    shows s.names.bound b = false := by
  obtain ⟨accept, haccept, bound, -, hbound, rfl⟩ := h
  rw [hbound trivial] at hk hs
  refine (Token.scanned ..).not_bound_of_word hk ?_ hb hs
  rw [s.has_accepted accept Token.Kind.noConfusion, s.has_accepted accept Token.Kind.noConfusion]
  exact haccept

theorem Made.dotGet {x : Node} (hheld : Held setup True s tok) (hk : tok.kind = .beforeDot)
    (hu : Marked setup (s.shift tok) [] u) (hx : Made setup u x t) (hstart : (u.pos : Int) ≤ x.span.start) :
    Made setup s ((Node.branch .dotGet [.leaf .identifier tok]).push x) t := by
  obtain ⟨accept, hlook⟩ := hheld.looks
  have hquiet : isQuiet tok.kind = true := hk ▸ rfl
  have hlt := (hlook.stands (ne_eof_of_isQuiet hquiet)).lt
  have hle : tok.stop ≤ u.pos := hu.lies.le
  have hspan : ((Node.branch .dotGet [.leaf .identifier tok]).push x).span.start = tok.start := by
    change min (tok.start : Int) x.span.start = tok.start
    omega
  refine .use hspan (hlook.start_eq hquiet (tok_ne hk Token.Kind.noConfusion)) (hlook.marked hquiet)
    ((Grown.first s tok .dotGet rfl).push (hx.after hu)) hlt (Nat.le_of_lt hlt) rfl rfl ⟨fun _ => ?_, nofun⟩
  exact ⟨.leaf .identifier tok, rfl, rfl, hheld.bound_of_beforeDot hk⟩

theorem DotGet.made (hheld : Held setup True s tok) (hk : tok.kind = .beforeDot)
    (h : DotGet setup True s tok n t) : Made setup s n t := by
  have hpast {dot : Token} (hdot : Looks setup True (s.shift tok) (.of [.dot]) dot) :
      Marked setup (s.shift tok) [] ((s.shift tok).pastDot dot) := by
    rw [Snapshot.pastDot]
    split
    · rename_i hk
      exact hdot.marked (hk ▸ rfl)
    · exact .moves (Nat.le_refl _) rfl
  cases h with
  | found hdot hprop hkind =>
    have hquiet : isQuiet Token.Kind.identifier = true := rfl
    exact .dotGet hheld hk (hpast hdot) (hprop.made (hkind ▸ hquiet) rfl)
      (Int.ofNat_le.mpr (hprop.start_le (tok_ne hkind Token.Kind.noConfusion)))
  | absent hdot =>
    exact .dotGet hheld hk (hpast hdot) (.here _ _) (Int.ofNat_le.mpr (Token.le_skipBlank _ _ _))

/-! ## Names that are bound -/

/-- An assignment binds the name that waited for it, after what its value did to the names. -/
theorem names_reduce_assign {node : Node} (hk : tok.kind = .assignable) (hkind : node.kind = .assign)
    (htargets : node.targets = [tok.text])
    (h : (s.shift tok).names.paramStart = none →
      t.names = { (s.shift tok).names with bound := Mark.applyAll (s.shift tok).names.bound node.inner })
    (hquiet : s.names.paramStart = none) :
    (t.reduce .assign).names = { s.names with bound := Mark.applyAll s.names.bound node.marks } := by
  have hshift : (s.shift tok).names = { s.names with pending := s.names.pending ++ [tok.text] } := by
    rw [Snapshot.shift, hk]
    rfl
  have hmarks : node.marks = node.inner ++ [.bind node] := by
    rw [marks_eq, opening, closing, hkind]
    rfl
  have hnames := h (by rw [hshift, hquiet])
  change t.names.reduce .assign = _
  rw [hnames, hshift, hmarks, Mark.applyAll_append, Scope.Names.reduce]
  simp [Mark.applyAll, Mark.apply, htargets]

theorem Made.assign {op value : Node} (hheld : Held setup True s tok) (hk : tok.kind = .assignable)
    (hop : Made setup (s.shift tok) op u) (hvalue : Made setup u value t) :
    Made setup s (((Node.branch .assign [.leaf .assignable tok]).push op).push value) (t.reduce .assign) := by
  obtain ⟨accept, hlook⟩ := hheld.looks
  have hlt := hlook.lt_stop (tok_ne hk Token.Kind.noConfusion)
  have hfirst : Grown setup tok.stop (s.shift tok) (.branch .assign [.leaf .assignable tok]) (s.shift tok) :=
    .first s tok .assign rfl
  have hgrown := (hfirst.push hop).push hvalue
  generalize hnode : ((Node.branch .assign [.leaf .assignable tok]).push op).push value = node at hgrown ⊢
  have hmarks : node.marks = node.inner ++ [.bind node] := by
    rw [marks_eq, ← hnode]
    rfl
  have htargets : node.targets = [tok.text] := by
    rw [← hnode]
    rfl
  have hle : tok.stop ≤ t.pos := hgrown.sits.le
  have hlow := hgrown.sits.low
  refine ⟨⟨?_, fun hquiet => ?_⟩, ?_⟩
  · rw [hmarks]
    exact hgrown.marked.lies.concat_bind (Nat.le_of_lt hlt) (by omega) hgrown.sits.high
      fun n hn => (hgrown.sits.inside n hn).1
  · have hshift : (s.shift tok).names = { s.names with pending := s.names.pending ++ [tok.text] } := by
      rw [Snapshot.shift, hk]
      rfl
    refine ⟨names_reduce_assign hk (by rw [← hnode]; rfl) htargets (fun h => (hgrown.marked.settles h).1) hquiet, ?_⟩
    have hsettled := (hgrown.marked.settles (by rw [hshift, hquiet])).2
    rw [hshift] at hsettled
    rw [hmarks, settled_append]
    exact ⟨hsettled, trivial, trivial⟩
  · rw [hmarks]
    refine ⟨Nat.le_of_lt (Nat.lt_of_lt_of_le hlt hle), by omega, hgrown.sits.high, fun m hm => ?_⟩
    rcases List.mem_append.mp hm with hm | hm
    · exact hgrown.sits.inside m hm
    · cases List.mem_singleton.mp hm

/-- The names in a parameter list wait to be bound. -/
theorem Params.names {node list : Node} (h : Params setup exact s node list t) (hin : s.names.paramStart ≠ none) :
    ∃ more, t.names = { s.names with pending := s.names.pending ++ more } ∧
      (list.ofKind .identifier).map (·.text) = (node.ofKind .identifier).map (·.text) ++ more := by
  induction h with
  | @name s t node list tok hlook hk _ ih =>
    have hshift : (s.shift tok).names = { s.names with pending := s.names.pending ++ [tok.text] } := by
      rw [Snapshot.shift, hk]
      exact if_pos (Option.isSome_iff_ne_none.mpr hin)
    obtain ⟨more, hnames, htexts⟩ := ih (by rwa [hshift])
    refine ⟨tok.text :: more, ?_, ?_⟩
    · rw [hnames, hshift]
      simp
    · rw [htexts]
      simp [ofKind, Node.push, leaf]
  | bad _ _ _ ih =>
    obtain ⟨more, hnames, htexts⟩ := ih hin
    refine ⟨more, hnames, ?_⟩
    rw [htexts]
    simp [ofKind, Node.push, faultNode, Node.fault]
  | done => exact ⟨[], by rw [List.append_nil], (List.append_nil _).symm⟩

/-- A parameter list without parameters so far, or one that ends where it is read. -/
def Listed (src : Text) (p : Nat) (node : Node) (q : Nat) : Prop :=
  node.inner = [] ∧ p ≤ q ∧ (node.children = [] ∧ node.span = .zero ∨ Sits src p node [] q)

theorem Listed.push {p : Nat} (h : Listed setup.src p n s.pos) (hmarks : c.marks = [])
    (hc : Sits setup.src s.pos c [] t.pos) : Listed setup.src p (n.push c) t.pos := by
  obtain ⟨hinner, hle, hnode⟩ := h
  refine ⟨by rw [inner_push, hinner, hmarks, List.append_nil], Nat.le_trans hle hc.le, .inr ?_⟩
  rcases hnode with ⟨hchildren, hspan⟩ | hsits
  · have hpush : (n.push c).span = c.span := by
      rw [Node.push, hchildren, hspan]
      rfl
    have hlow := hc.weaken hle (Nat.le_refl _)
    exact ⟨hlow.le, hpush ▸ hlow.low, hpush ▸ hlow.high, fun m hm => by cases hm⟩
  · have hpush := Sits.push (hinner ▸ hsits) (hmarks ▸ hc)
    rwa [inner_push, hinner, hmarks, List.append_nil] at hpush

theorem Params.listed {node list : Node} {p : Nat} (h : Params setup exact s node list t)
    (hnode : Listed setup.src p node s.pos) : list.kind = node.kind ∧ Listed setup.src p list t.pos := by
  induction h with
  | @name s t node list tok hlook hk _ ih =>
    have hle := Nat.le_of_lt (hlook.lt_stop (tok_ne hk Token.Kind.noConfusion))
    exact ih (hnode.push (t := s.shift tok) (marks_leaf rfl tok) (sits_token hle))
  | @bad s t node list tok hlook hk _ ih =>
    have hle := Nat.le_of_lt (hlook.lt_stop (tok_ne hk Token.Kind.noConfusion))
    refine ih (hnode.push (t := s.moveTo tok.stop) (marks_faultNode ..) ?_)
    exact ⟨hle, Int.ofNat_le.mpr hle, Int.ofNat_le.mpr (le_reach _ _), nofun⟩
  | done => exact ⟨rfl, hnode⟩

theorem paramList_kind (list : Node) (pos : Nat) : (paramList list pos).kind = list.kind := by
  rw [paramList]
  split <;> rfl

theorem paramList_children (list : Node) (pos : Nat) : (paramList list pos).children = list.children := by
  rw [paramList]
  split <;> rfl

theorem Listed.sits {p q : Nat} {src : Text} (h : Listed src p n q) : Sits src p (paramList n q) [] q := by
  obtain ⟨-, hle, hnode⟩ := h
  have hpoint : Sits src p { n with span := .point q } [] q :=
    ⟨hle, Int.ofNat_le.mpr hle, Int.ofNat_le.mpr (le_reach src q), nofun⟩
  rw [paramList]
  split
  · exact hpoint
  · rename_i hleaf
    refine hnode.resolve_left fun hempty => hleaf ?_
    rw [isLeaf, hempty.1]
    rfl

/-- The names in the parameter list of a function are bound in a scope of their own. -/
theorem Params.enters {list : Node} {s₁ : Snapshot} (hk : tok.kind = .kwFn) (hquiet : s.names.paramStart = none)
    (h : Params setup exact (s.shift tok) { kind := .params, span := .zero } list s₁) :
    (s₁.reduce .params).names =
      { s.names with bound := ((list.ofKind .identifier).map (·.text)).foldl Scope.bind [] :: s.names.bound } := by
  have hshift : (s.shift tok).names = { s.names with paramStart := some s.names.pending.length } := by
    rw [Snapshot.shift, hk]
    rfl
  obtain ⟨more, hnames, htexts⟩ := h.names (by rw [hshift]; exact Option.some_ne_none _)
  change s₁.names.reduce .params = _
  rw [hnames, hshift, htexts, Scope.Names.reduce]
  simp [ofKind, hquiet]

/-- What a function does to the names is undone where it ends. -/
theorem names_reduce_functionDef {node : Node} (hk : node.kind = .functionDef)
    (hnames : u.names = { s.names with bound := node.parameters.foldl Scope.bind [] :: s.names.bound })
    (h : t.names = { u.names with bound := Mark.applyAll u.names.bound node.inner }) :
    (t.reduce .functionDef).names = { s.names with bound := Mark.applyAll s.names.bound node.marks } := by
  have happly : Mark.applyAll s.names.bound (.enter node :: (node.inner ++ [.leave])) =
      dropTop (Mark.applyAll (node.parameters.foldl Scope.bind [] :: s.names.bound) node.inner) :=
    Mark.applyAll_append (node.parameters.foldl Scope.bind [] :: s.names.bound) node.inner [.leave]
  have hmarks : node.marks = .enter node :: (node.inner ++ [.leave]) := by
    rw [marks_eq, opening, closing, hk]
    rfl
  change t.names.reduce .functionDef = _
  rw [hmarks, happly, h, hnames, Scope.Names.reduce]

/-- The parameters of a function are the names in its list. -/
theorem parameters_of_head {node list : Node} {pos : Nat} {rest : List Node} (hlist : list.kind = .params)
    (h : node.children = .leaf .keyword tok :: paramList list pos :: rest) :
    node.parameters = (list.ofKind .identifier).map (·.text) := by
  have hkind : (paramList list pos).kind = .params := by rw [paramList_kind, hlist]
  have hofKind : (paramList list pos).ofKind .identifier = list.ofKind .identifier := by
    rw [ofKind, paramList_children, ofKind]
  rw [parameters, first?, h]
  simp [hkind, hofKind]

theorem Grown.functionDef {p : Nat} (h : Grown setup p u n t) (hk : n.kind = .functionDef)
    (hhead : (n.children.take 3).flatMap marks = []) (hp : s.pos ≤ p) (hu : s.pos ≤ u.pos)
    (hnames : s.names.paramStart = none →
      u.names = { s.names with bound := n.parameters.foldl Scope.bind [] :: s.names.bound }) :
    Made setup s n (t.reduce .functionDef) := by
  have hmarks : n.marks = .enter n :: (n.inner ++ [.leave]) := by
    rw [marks_eq, opening, closing, hk]
    rfl
  have hsits := h.sits.weaken hp (Nat.le_refl _)
  refine ⟨⟨?_, fun hquiet => ?_⟩, ?_⟩
  · rw [hmarks]
    exact h.marked.lies.within hu
  · obtain ⟨hends, hsettled⟩ := h.marked.settles (by rw [hnames hquiet, hquiet])
    refine ⟨names_reduce_functionDef hk (hnames hquiet) hends, ?_⟩
    rw [hnames hquiet] at hsettled
    rw [hmarks]
    exact ⟨hhead, settled_append.mpr ⟨hsettled, trivial, trivial⟩⟩
  · rw [hmarks]
    refine ⟨hsits.le, hsits.low, hsits.high, fun m hm => hsits.inside m ?_⟩
    simpa using hm

theorem Made.functionDef {list c node : Node} {stmts : List Node} {block : Bool} {s₁ s₂ s₃ : Snapshot}
    (hheld : Held setup True s tok) (hk : tok.kind = .kwFn)
    (hparams : Params setup True (s.shift tok) { kind := .params, span := .zero } list s₁)
    (hcolon : Colon setup True (s₁.reduce .params) c s₂) (hbody : MadeAll setup s₂ stmts s₃)
    (hclose : CloseBody setup True s₃
      ((((Node.branch .functionDef [.leaf .keyword tok]).push (paramList list s₁.pos)).push c).append stmts)
      block node t) : Made setup s node (t.reduce .functionDef) := by
  obtain ⟨accept, hlook⟩ := hheld.looks
  have hlt := hlook.lt_stop (tok_ne hk Token.Kind.noConfusion)
  obtain ⟨hlist, hlisted⟩ := hparams.listed (p := tok.stop) ⟨rfl, Nat.le_refl _, .inl ⟨rfl, rfl⟩⟩
  have hfirst : s.pos ≤ s₁.pos := Nat.le_of_lt (Nat.lt_of_lt_of_le hlt hlisted.2.1)
  have hleaf : (Node.leaf .keyword tok).marks = [] := marks_leaf rfl tok
  have hmarks : (paramList list s₁.pos).marks = [] := by
    rw [marks_of_isPlain (by rw [paramList_kind, hlist]; rfl), Node.inner, paramList_children]
    exact hlisted.1
  -- The head of the function neither uses nor binds names.
  have hhead : Grown setup tok.stop (s₁.reduce .params)
      ((Node.branch .functionDef [.leaf .keyword tok]).push (paramList list s₁.pos)) (s₁.reduce .params) := by
    have hkeyword : Grown setup tok.stop (s.shift tok) (.branch .functionDef [.leaf .keyword tok]) (s.shift tok) :=
      .first s tok .functionDef rfl
    refine ⟨?_, hkeyword.sits.push (c := paramList list s₁.pos) (hmarks ▸ hlisted.sits)⟩
    rw [inner_push, hmarks, List.append_nil, inner_branch, List.flatMap_singleton, hleaf]
    exact .moves (Nat.le_refl _) rfl
  obtain ⟨henlarged, rest, hchildren⟩ := hclose.enlarged
  have hchildren : node.children = [.leaf .keyword tok, paramList list s₁.pos, c] ++ (stmts ++ rest) := by
    rw [hchildren, append_children, List.append_assoc]
    rfl
  refine (henlarged.grown _ _ ((hhead.push hcolon.made).append hbody)).functionDef ?_ ?_ (Nat.le_of_lt hlt) hfirst ?_
  · rw [henlarged.kind, append_kind]
    rfl
  · rw [hchildren]
    simp [hmarks, hcolon.marks, hleaf]
  · intro hquiet
    rw [hparams.enters hk hquiet, parameters_of_head hlist hchildren]

theorem push_start {lo : Int} (hn : n.span.start = lo) (hc : lo ≤ c.span.start)
    (hfirst : n.children = [] → lo = c.span.start) : (n.push c).span.start = lo := by
  rw [Node.push]
  dsimp only
  split
  · rename_i hempty
    exact (hfirst (List.isEmpty_iff.mp (Bool.and_eq_true_iff.mp hempty).1)).symm
  · change min n.span.start c.span.start = lo
    omega

/-- A word keeps the start that it is given, and pieces start where they are read. -/
def Production.Starts : (p : Production) → Snapshot → p.Answer → Prop
  | .wordPieces node, s, whole => ∀ lo : Nat, node.span.start = lo → lo ≤ s.pos → (node.children = [] → lo = s.pos) →
      whole.span.start = lo
  | .piece _, s, node => node.span.start = s.pos
  | _, _, _ => True

theorem Reads.starts {p : Production} {a : p.Answer} (h : Reads setup exact p s a t) : p.Starts s a := by
  induction h with
  | endWord => exact fun lo hstart _ _ => hstart
  | @wordText s t node whole hk _ ih =>
    intro lo hstart hle hfirst
    have hpiece := wordPiece_at (tok_ne hk Token.Kind.noConfusion)
    have hleaf : (Node.leaf .wordFragment (Token.wordPiece setup.src s.pos)).span.start = s.pos :=
      congrArg Int.ofNat hpiece.1
    refine ih lo (push_start hstart (by omega) fun hempty => ?_) (Nat.le_trans hle (Nat.le_of_lt hpiece.2)) ?_
    · rw [hleaf, hfirst hempty]
    · exact fun hempty => absurd (List.append_eq_nil_iff.mp hempty).2 (List.cons_ne_nil _ _)
  | @wordPart s s₁ t node part whole hpiece _ ihpiece ih =>
    intro lo hstart hle hfirst
    have hpart : part.span.start = s.pos := ihpiece
    refine ih lo (push_start hstart (by omega) fun hempty => ?_) (Nat.le_trans hle hpiece.progress.1.le) ?_
    · rw [hpart, hfirst hempty]
    · exact fun hempty => absurd (List.append_eq_nil_iff.mp hempty).2 (List.cons_ne_nil _ _)
  | escape hpiece | interpolatedName hpiece | interpolated hpiece => exact congrArg Int.ofNat hpiece.start_eq
  | _ => trivial

end

/-! ## Productions -/

/-- The nodes that a production reads, or what it reads below those that it was given. -/
@[reducible]
def Production.Marks (setup : Setup) : (p : Production) → Snapshot → p.Answer → Snapshot → Prop
  | .statements _, s, stmts, t | .inlineBody _, s, stmts, t => MadeAll setup s stmts t
  | .body _, s, (stmts, _), t => MadeAll setup s stmts t
  | .inlineRest _, s, rest, t => ∀ stmts, rest = some stmts → MadeAll setup s stmts t
  | .operators _ left, s, more, t => ∀ s₀, Made setup s₀ left s → Made setup s₀ (more.getD left) t
  | .call id, s, node, t => ∀ s₀, Made setup s₀ id s → Made setup s₀ node t
  | .branches node _ _, s, whole, t | .stages node _, s, whole, t | .args node _, s, whole, t
  | .stringPieces _ node, s, whole, t => Enlarged setup s node whole t
  | .wordPieces node, s, whole, t => Enlarged setup s node whole t ∧
      ((Token.wordPiece setup.src s.pos).kind ≠ .fragmentEnd →
        ∀ p s₀, Grown setup p s₀ node s → Grown setup (s.pos + 1) s₀ whole t)
  | .parenBody opening, s, node, t => opening.stop = s.pos → Made setup s node t
  | .piece _, s, node, t => Made setup s node t ∧ (s.pos : Int) < node.span.stop
  | .statement, s, node, t | .assign _, s, node, t | .functionDef _, s, node, t | .ifExpr _, s, node, t
  | .expression, s, node, t | .binary _ _, s, node, t | .operand _ _, s, node, t | .operandBody _ _, s, node, t
  | .arg _, s, node, t => Made setup s node t

variable {setup : Setup}

theorem Made.block {s t : Snapshot} {stmts : List Node} (h : MadeAll setup s stmts t) :
    Made setup s (blockNode t.pos stmts) t := by
  have hle := h.sits.le
  cases stmts with
  | nil => exact ⟨h.marked, hle, Int.ofNat_le.mpr hle, Int.ofNat_le.mpr (le_reach _ _), nofun⟩
  | cons stmt stmts => exact (h.branch .thenBlock).made rfl

theorem isPlain_loneName (names : Scope.Names) (id : Node) : (loneName setup names id).kind.isPlain = true := by
  have hplain (b : Bool) : (if b then Kind.functionCall else .callOrIdentifier).isPlain = true := by
    cases b <;> rfl
  exact hplain _

theorem Made.loneName {s t : Snapshot} {id : Node} (names : Scope.Names) (h : Made setup s id t) :
    Made setup s (loneName setup names id) t :=
  (h.single.branch _).made (isPlain_loneName names id)

theorem isPlain_operatorNode (prec : Nat) : (operatorNode prec).isPlain = true := by
  rw [operatorNode]
  split <;> rfl

theorem isQuiet_of_precedence {k : Token.Kind} {minPrec : Nat} (h : ¬ (precedence k = 0 ∨ precedence k < minPrec)) :
    isQuiet k = true := by
  cases k <;> first | rfl | exact absurd (.inl rfl) h

theorem isPlain_literal {k : Token.Kind} {kind : Kind} (h : literalKind? k = some kind) :
    isQuiet k = true ∧ kind.isPlain = true := by
  cases k <;> cases h <;> exact ⟨rfl, rfl⟩

theorem Made.piece {s : Snapshot} {tok : Token} {kind : Kind} (hplain : kind.isPlain = true) (h : s.pos < tok.stop) :
    Made setup s (.leaf kind tok) (s.advance tok) := by
  have hmarks := marks_leaf hplain tok
  exact ⟨hmarks ▸ .moves (Nat.le_of_lt h) rfl, hmarks ▸ sits_token (Nat.le_of_lt h)⟩

theorem stop_le_push (n c : Node) : c.span.stop ≤ (n.push c).span.stop := by
  rw [Node.push]
  dsimp only
  split
  · exact Int.le_refl _
  · exact Int.le_max_right ..

/-- A word with a piece does not end where it starts. -/
theorem Enlarged.longer {s t u : Snapshot} {node part whole : Node} (hpart : Made setup s part u)
    (hlt : s.pos < u.pos) (hlonger : (s.pos : Int) < part.span.stop) (h : Enlarged setup u (node.push part) whole t) :
    Enlarged setup s node whole t ∧ ((Token.wordPiece setup.src s.pos).kind ≠ .fragmentEnd →
      ∀ p s₀, Grown setup p s₀ node s → Grown setup (s.pos + 1) s₀ whole t) := by
  refine ⟨(Enlarged.push node hpart).trans h, fun _ p s₀ hn => h.grown _ s₀ ?_⟩
  have hpush := hn.push hpart
  have hstop := stop_le_push node part
  exact ⟨hpush.marked, hpush.sits.raise hlt (by omega)⟩

theorem Made.word {s t : Snapshot} {tok : Token} {node : Node} (hheld : Held setup True s tok) (hk : tok.kind = .word)
    (hstarts : (Production.wordPieces { kind := .word, span := .point tok.start }).Starts (s.moveTo tok.start) node)
    (h : Enlarged setup (s.moveTo tok.start) { kind := .word, span := .point tok.start } node t)
    (hlonger : (Token.wordPiece setup.src tok.start).kind ≠ .fragmentEnd → ∀ p s₀,
      Grown setup p s₀ { kind := .word, span := .point tok.start } (s.moveTo tok.start) →
        Grown setup (tok.start + 1) s₀ node t) :
    Made setup s node t := by
  obtain ⟨accept, hlook⟩ := hheld.looks
  have hquiet : isQuiet tok.kind = true := hk ▸ rfl
  have hstart : node.span.start = tok.start := hstarts tok.start rfl (Nat.le_refl _) fun _ => rfl
  have hgrown := hlonger (hlook.wordPiece hk) tok.start (s.moveTo tok.start) (.fresh (s.moveTo tok.start) rfl rfl)
  have hmoves : Marked setup s [] (s.moveTo tok.start) := .moves (hlook.start_le (ne_eof_of_isQuiet hquiet)) rfl
  refine .use hstart (hlook.start_eq hquiet (tok_ne hk Token.Kind.noConfusion)) hmoves hgrown
    (Nat.lt_succ_self _) (Nat.le_refl _) ?_ ?_ ⟨?_, ?_⟩
  · rw [opening, h.kind]
  · rw [closing, h.kind]
  · rw [h.kind]
    exact fun hkind => by cases hkind
  · intro _ b rest hb hs
    rw [hstart] at hs
    exact hheld.not_bound_of_word hk hb hs

theorem Reads.marked {p : Production} {s t : Snapshot} {a : p.Answer} (h : Reads setup True p s a t) :
    p.Marks setup s a t := by
  induction h with
  | halted => exact .nil (.moves (Nat.le_refl _) rfl)
  | off | noMore => exact .nil (.moves (Nat.le_refl _) rfl)
  | @separator s t stop tok stmts _ _ hlook _ hk _ ih =>
    have hquiet : isQuiet tok.kind = true := by rcases hk with hk | hk <;> rw [hk] <;> rfl
    have hcount : Marked setup s [] s.count := .moves (Nat.le_refl _) rfl
    exact .after (hcount.trans (hlook.marked hquiet)) ih
  | @next s s₁ s₂ t stop tok stmt junk stmts _ _ _ _ _ _ hjunk _ ihstmt ihrest =>
    have hcount : Marked setup s [] s.count := .moves (Nat.le_refl _) rfl
    exact (Made.after hcount ihstmt).cons (hjunk.made.append ihrest)
  | assignment _ _ _ ih | evaluate _ _ _ _ ih | function _ _ ih | conditional _ _ ih => exact ih
  | noStatement => exact .skip _ _
  | assign hheld hk hop _ ih => exact .assign hheld hk (Expects.made rfl rfl hop) ih
  | @block s _ _ _ _ _ _ _ ih | @inlined s _ _ _ _ _ _ _ _ ih =>
    have hflat : Marked setup s [] (s.withParens 0) := .moves (Nat.le_refl _) rfl
    exact (MadeAll.after hflat ih).before (.moves (Nat.le_refl _) rfl)
  | noBody => exact .nil (.moves (Nat.le_refl _) rfl)
  | several _ _ ihfirst ihrest => exact Made.cons ihfirst (ihrest _ rfl)
  | @single s s₁ t _ _ _ _ ihfirst _ =>
    -- What the attempt did to the names is undone.
    have hback : Marked setup s₁ [] (s₁.back t.looks) := .moves (Nat.le_refl _) rfl
    exact (Made.before ihfirst hback).single
  | restClosed =>
    rintro _ ⟨⟩
    exact .nil (.moves (Nat.le_refl _) rfl)
  | restOpen | restOpenNext => rintro _ ⟨⟩
  | restClosedNext hlook _ hk =>
    rintro _ ⟨⟩
    exact .nil (hlook.marked (hk ▸ rfl))
  | restMore hlook _ hk _ _ _ _ _ ihstmt ihrest =>
    intro stmts hstmts
    obtain ⟨rest, hrest, rfl⟩ := Option.map_eq_some_iff.mp hstmts
    exact (Made.after (hlook.marked (hk ▸ rfl)) ihstmt).cons (ihrest rest hrest)
  | functionDef hheld hk hparams hcolon _ hclose ih => exact .functionDef hheld hk hparams hcolon ih hclose
  | ifExpr hheld hk _ hcolon _ _ ihcondition ihbody ihbranches =>
    obtain ⟨accept, hlook⟩ := hheld.looks
    have hkeyword := (hlook.made (hk ▸ rfl) (k := .keyword) rfl).single.branch .ifExpr
    exact Enlarged.made ihbranches (((hkeyword.push ihcondition).push hcolon.made).push (.block ihbody)) rfl
  | elsif hlook hk _ hcolon _ _ ihcondition ihbody ihbranches =>
    have hkeyword := (hlook.made (hk ▸ rfl) (k := .keyword) rfl).single.branch .elsifExpr
    have hbranch := (((hkeyword.push ihcondition).push hcolon.made).push (.block ihbody)).made rfl
    exact (Enlarged.push _ hbranch).trans ihbranches
  | otherwise hlook hk hcolon _ _ ihbody ihbranches =>
    have hkeyword := (hlook.made (hk ▸ rfl) (k := .keyword) rfl).single.branch .elseExpr
    have hbranch := ((hkeyword.push hcolon.made).push (.block ihbody)).made rfl
    exact (Enlarged.push _ hbranch).trans ihbranches
  | endIf _ _ _ hclose => exact hclose.enlarged.1
  | pipe _ _ _ _ ihleft ihstages =>
    exact Enlarged.made ihstages ((Made.single ihleft).branch .pipeExpr) rfl
  | alone _ _ _ ih => exact ih
  | stage hheld hkind _ _ _ _ ihvalue ihrest =>
    obtain ⟨accept, hlook⟩ := hheld.looks
    have hoperator := hlook.made (hkind ▸ rfl) (k := .operator) rfl
    exact ((Enlarged.push _ hoperator).trans (.push _ ihvalue)).trans ihrest
  | lastStage hheld hkind _ _ _ ih =>
    obtain ⟨accept, hlook⟩ := hheld.looks
    have hoperator := hlook.made (hkind ▸ rfl) (k := .operator) rfl
    exact (Enlarged.push _ hoperator).trans (.push _ ih)
  | operation _ _ _ ihleft ihops | justOperand _ _ _ _ ihleft ihops => exact ihops _ ihleft
  | lone _ _ _ _ ihleft ihops => exact .loneName _ (ihops _ ihleft)
  | noOperator => exact fun s₀ hleft => hleft
  | operator hlook hprec _ _ ihright ihmore =>
    intro s₀ hleft
    have hoperator := hlook.made (isQuiet_of_precedence hprec) (k := .operator) rfl
    exact ihmore s₀ (((hleft.cons (hoperator.cons (Made.single ihright))).branch _).made (isPlain_operatorNode _))
  | tooDeep => exact .skip _ _
  | @operand s t _ _ _ _ _ _ ih =>
    have hdeep : Marked setup s [] s.deepen := .moves (Nat.le_refl _) rfl
    exact (Made.after hdeep ih).before (.moves (Nat.le_refl _) rfl)
  | literal hheld hk =>
    obtain ⟨accept, hlook⟩ := hheld.looks
    obtain ⟨hquiet, hplain⟩ := isPlain_literal hk
    exact hlook.made hquiet hplain
  | @string s t tok callable node hheld hk _ ih =>
    obtain ⟨accept, hlook⟩ := hheld.looks
    exact .after (hlook.marked (hk ▸ rfl)) (Enlarged.made ih (.fresh (s.shift tok) rfl rfl) rfl)
  | word hheld hk h ih => exact .word hheld hk h.starts ih.1 ih.2
  | callee hheld hk _ ih =>
    obtain ⟨accept, hlook⟩ := hheld.looks
    exact ih _ (hlook.made (hk ▸ rfl) rfl)
  | group hheld hk _ ih =>
    obtain ⟨accept, hlook⟩ := hheld.looks
    exact .after (hlook.marked (hk ▸ rfl)) (ih rfl)
  | name hheld hk =>
    obtain ⟨accept, hlook⟩ := hheld.looks
    exact hlook.made (hk ▸ rfl) rfl
  | dotGet hheld hk h => exact h.made hheld hk
  | noOperand => exact .here _ _
  | @badOperand s tok _ hheld _ hk =>
    obtain ⟨accept, hlook⟩ := hheld.looks
    have hne : tok.kind ≠ .eof := by
      intro heof
      rw [heof] at hk
      cases hk
    have hle := Nat.le_of_lt (hlook.lt_stop hne)
    exact .fault _ hle rfl (Int.ofNat_le.mpr hle) (Int.ofNat_le.mpr (le_reach _ _))
  | glued | noArgs => exact fun s₀ hid => hid
  | withArgs _ _ _ _ ih => exact fun s₀ hid => Enlarged.made ih (hid.single.branch .functionCall) rfl
  | moreArgs _ _ _ _ iharg ihrest => exact (Enlarged.push _ iharg).trans ihrest
  | lastArg _ _ _ ih => exact .push _ ih
  | positional _ _ ih => exact ((Made.single ih).branch .positionalArg).made rfl
  | named hheld hk _ _ _ ih =>
    obtain ⟨accept, hlook⟩ := hheld.looks
    have hname := (hlook.made (hk ▸ rfl) (k := .argName) rfl).single.branch .namedArg
    exact (hname.push ih).made rfl
  | noValue hheld hk =>
    obtain ⟨accept, hlook⟩ := hheld.looks
    have hname := (hlook.made (hk ▸ rfl) (k := .argName) rfl).single.branch .namedArg
    exact (hname.push (.here _ _)).made rfl
  | @emptyGroup s t opening tok node _ _ hclose =>
    intro hopening
    have henter : Marked setup s [] s.enter := .moves (Nat.le_refl _) rfl
    exact (Made.after henter (hclose.enlarged.made (.fresh s.enter rfl hopening) rfl)).before
      (.moves (Nat.le_refl _) rfl)
  | @fullGroup s s₁ s₂ t opening tok value inner node _ _ _ hjunk hclose ih =>
    intro hopening
    have henter : Marked setup s [] s.enter := .moves (Nat.le_refl _) rfl
    have hbody := ((Enlarged.push _ ih).trans hjunk.enlarged).trans hclose.enlarged
    exact (Made.after henter (hbody.made (.fresh s.enter rfl hopening) rfl)).before (.moves (Nat.le_refl _) rfl)
  | @closeQuote s quote node hk =>
    have hpiece := stringPiece_at (tok_ne hk Token.Kind.noConfusion)
    have hmoves : Marked setup s [] (s.advance (Token.stringPiece setup.src s.pos quote)) :=
      .moves (Nat.le_of_lt hpiece.2) rfl
    exact ⟨rfl, fun p s₀ hn => hn.withStop hmoves hpiece.2⟩
  | unterminated hpos => exact .push _ (.fault _ hpos rfl (Int.ofNat_le.mpr hpos) (Int.ofNat_le.mpr (le_reach _ _)))
  | stringText hk _ ih =>
    have hpiece := stringPiece_at (tok_ne hk Token.Kind.noConfusion)
    exact (Enlarged.push _ (.piece rfl hpiece.2)).trans ih
  | stringPart _ _ ihpiece ih => exact (Enlarged.push _ ihpiece.1).trans ih
  | endWord hk => exact ⟨.refl _ _, fun hend => absurd hk hend⟩
  | @wordText s t node whole hk _ ih =>
    have hpiece := wordPiece_at (tok_ne hk Token.Kind.noConfusion)
    exact Enlarged.longer (.piece rfl hpiece.2) hpiece.2 (Int.ofNat_lt.mpr hpiece.2) ih.1
  | wordPart hpiece _ ihpiece ih => exact Enlarged.longer ihpiece.1 hpiece.progress.2 ihpiece.2 ih.1
  | escape hpiece => exact ⟨.piece rfl hpiece.lt, Int.ofNat_lt.mpr hpiece.lt⟩
  | @interpolatedName s tok hpiece =>
    have hle := Nat.le_of_lt hpiece.lt
    refine ⟨⟨.moves hle rfl, ?_⟩, Int.ofNat_lt.mpr hpiece.lt⟩
    exact ⟨hle, Int.ofNat_le.mpr hle, Int.ofNat_le.mpr (le_reach _ _), nofun⟩
  | @interpolated s t tok paren hpiece _ _ ih =>
    have hparen : Made setup (s.advance tok) paren t := ih rfl
    have hmoves : Marked setup s [] (s.advance tok) := .moves (Nat.le_of_lt hpiece.lt) rfl
    have hlow : (tok.stop : Int) ≤ paren.span.stop := hparen.sits.low
    obtain ⟨hmarked, hsits⟩ := Made.after hmoves hparen
    rw [← List.flatMap_singleton (f := marks) (x := paren)] at hmarked hsits
    have hgrown : Grown setup s.pos s
        { kind := .interpolation, span := ⟨tok.start, paren.span.stop⟩, children := [paren] } t :=
      ⟨hmarked, hsits.le, hsits.low, hsits.high, hsits.inside⟩
    exact ⟨hgrown.made rfl, Int.lt_of_lt_of_le (Int.ofNat_lt.mpr hpiece.lt) hlow⟩

end Bareword.Tree.Grammar
