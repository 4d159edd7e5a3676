import Bareword.Proofs.Tree.Clean
import Bareword.Proofs.Tree.Shapes

/-! # Bodies on one line

A body that starts on the line of its colon may go on after a semicolon, but only if something on that line closes
it. Otherwise what was read after its first statement is given up. Whether something closes it is asked twice, with
different kinds of tokens in mind; what makes the answers agree is that keywords are read alike either way.

* `Token.scan_keyword`: what all questions to the scanner have to agree on where a keyword stands.
* `ClosesAt`: a keyword that closes a body stands at an offset.
* `Reads.inlines`: more than one statement is read only for a body that is closed.
* `parse_inline_bodies`: the functions and conditionals of a parse that are not closed.
-/

namespace Bareword.Token
set_option autoImplicit false

/-! ## Keywords -/

/-- A name is a name for every run that takes nothing but names and knows of none that are bound. -/
theorem run_bare {rule rule' : RunRule} {s : Text} {n : Nat} (hword : rule'.allowWord = false)
    (hbound : rule'.bound = none) (hpos : 0 < n) (h : run rule s = (n, .name)) : run rule' s = (n, .name) := by
  obtain ⟨hfront, hstop⟩ := run_stops h Shape.noConfusion
  rw [runFrom_namePrefix rule' hfront, runFrom]
  split
  · rfl
  · rename_i r rest hnext
    have hchar : isNameChar r.code = false := by
      cases hname : isNameChar r.code with
      | false => rfl
      | true =>
        -- A character of a name would not have ended the other run.
        have hwidth := (Text.next?_eq_some hnext).2.1
        rw [runFrom_nameChar rule s hnext (by rwa [if_neg (Nat.ne_of_gt hpos)])] at hstop
        have hle := (runFrom_le rule s (n + r.width) true rest).1
        rw [hstop] at hle
        dsimp only at hle
        omega
    have hsplits (lead : Text) : rule'.splits lead r.code = false := by rw [RunRule.splits, hbound]
    simp only [hword, hsplits, hchar, if_neg (Nat.ne_of_gt hpos), Bool.not_false, Bool.true_or, Bool.and_true,
      Bool.and_false, Bool.false_eq_true, if_true, if_false]
    repeat' split
    all_goals rfl

/-- The kinds that change what a keyword is read as. -/
def readingKinds : List Kind :=
  [.dot, .number, .regex, .word, .beforeDot] ++ Kind.operators.map Prod.snd

/-- A keyword is found by reading a name. -/
theorem Classified.of_keyword {accept : KindSet} {bound : Option (Text → Bool)} {r : Rune} {s : Text} {k : Kind}
    {n : Nat} (h : Classified accept bound r s k n) (hk : k.isKeyword = true) :
    0 < n ∧ run (ruleOf accept bound) s = (n, .name) ∧ Kind.ofKeyword? (s.take n) = some k := by
  have hpunct : ∀ k ∈ punctuationKinds, k.isKeyword = false := by decide
  have hoperator : ∀ k ∈ Kind.operators.map Prod.snd, k.isKeyword = false := by decide
  have hno (hfalse : k.isKeyword = false) : False := by
    rw [hk] at hfalse
    cases hfalse
  cases h with
  | keyword hpos hrun hkeyword => exact ⟨hpos, hrun, hkeyword⟩
  | punctuation h => exact (hno (hpunct k (punctuation?_mem h))).elim
  | operator h => exact (hno (hoperator k (ofOperator?_mem (operator?_eq_some h).1))).elim
  | glued _ h =>
    obtain ⟨-, -, h⟩ := gluedOperator?_eq_some h
    exact (hno (hoperator k (ofOperator?_mem (operator?_eq_some h).1))).elim
  | _ => cases hk

theorem lt_of_isNameStart {c : Nat} (h : isNameStart c = true) : 64 < c := by
  simp only [isNameStart, isLower, isPictograph, pictographRanges, Bool.or_eq_true, Bool.and_eq_true,
    decide_eq_true_eq, List.any_cons, List.any_nil] at h
  simp at h
  omega

/-- A name starts with a character that is no token by itself. -/
theorem punctuation?_of_name {accept : KindSet} {rule : RunRule} {r : Rune} {s rest : Text} {n : Nat} (hpos : 0 < n)
    (hnext : s.next? = some (r, rest)) (h : run rule s = (n, .name)) (hdot : accept.has .dot = false) :
    punctuation? accept r.code = none := by
  obtain ⟨rs, hrs, hspells, hn⟩ := (run_stops h Shape.noConfusion).1
  generalize s.drop n = tail at hspells
  cases hspells with
  | nil => exact absurd hn (Nat.ne_of_gt hpos)
  | cons hfirst _ =>
    rw [hnext] at hfirst
    cases hfirst
    have hlt := lt_of_isNameStart hrs.1
    have hne (c : Char) (hc : c.toNat ≤ 64) : r.code ≠ c.toNat := by omega
    simp only [punctuation?, hdot, hne '\n' (by decide), hne '(' (by decide), hne ')' (by decide), hne ';' (by decide),
      hne ':' (by decide), hne '\'' (by decide), hne '"' (by decide), Bool.false_eq_true, and_false, or_false, if_false]

/-- Where some question finds a keyword, so does any question that does not accept other readings of it. -/
theorem classify_keyword {accept accept' : KindSet} {bound bound' : Option (Text → Bool)} {r : Rune} {s rest : Text}
    {k : Kind} {n : Nat} (hbare : ∀ k ∈ readingKinds, accept'.has k = false) (hnext : s.next? = some (r, rest))
    (h : Classified accept bound r s k n) (hk : k.isKeyword = true) : classify accept' bound' r s = (k, n) := by
  obtain ⟨hpos, hrun, hkeyword⟩ := h.of_keyword hk
  have hoperator (t : Text) : operator? accept' t = none := by
    rw [operator?, Option.filter_eq_none_iff]
    intro k hk
    rw [hbare k (List.mem_append_right _ (ofOperator?_mem hk))]
    exact Bool.false_ne_true
  have hglued (t : Text) : gluedOperator? accept' t = none := by
    rw [gluedOperator?, hoperator, hoperator]
    simp
  have hname : run ⟨false, accept'.has .argName || accept'.has .assignable, !accept'.has .argName, none⟩ s =
      (n, .name) := run_bare rfl rfl hpos hrun
  rw [classify, punctuation?_of_name hpos hnext hrun (hbare _ (by decide))]
  simp only [hbare .regex (by decide), hbare .number (by decide), hbare .word (by decide),
    hbare .beforeDot (by decide), hoperator, hglued, hname, Bool.false_and, Bool.and_false, Bool.false_eq_true,
    if_false]
  cases n with
  | zero => exact absurd hpos (Nat.lt_irrefl 0)
  | succ n =>
    change nameToken accept' s (n + 1) = _
    rw [nameToken, hkeyword]

/-- Where some question that minds line ends finds a keyword, so does any question from the same place that does not
accept other readings of it. -/
theorem scan_keyword {src : Text} {pos : Nat} {accept accept' : KindSet} {bound bound' : Option (Text → Bool)}
    (hline : accept.has .newline = true) (hbare : ∀ k ∈ readingKinds, accept'.has k = false)
    (hk : (scan src pos accept bound).kind.isKeyword = true) :
    (scan src pos accept' bound').kind = (scan src pos accept bound).kind := by
  have hstart : skipBlank src pos true = skipBlank src pos false := by
    have heof : (scan src pos accept bound).kind ≠ .eof := by
      intro heof
      rw [heof] at hk
      cases hk
    rw [← hline, ← ((scanned src pos accept bound).stands heof).start_eq]
    refine scan_start heof fun hnewline => ?_
    rw [hnewline] at hk
    cases hk
  have hskip : skipBlank src pos (accept'.has .newline) = skipBlank src pos (accept.has .newline) := by
    rw [hline]
    cases accept'.has .newline with
    | true => rfl
    | false => exact hstart.symm
  revert hk
  rw [scan, scan, hskip]
  dsimp only
  cases hnext : Text.next? (src.drop (skipBlank src pos (accept.has .newline))) with
  | none => exact fun hk => rfl
  | some found =>
    intro hk
    dsimp only
    rw [classify_keyword hbare hnext (classified accept bound found.1 _) hk]

end Bareword.Token

namespace Bareword.Tree
set_option autoImplicit false
open Token (KindSet)

namespace Node

/-! ## Functions and conditionals -/

/-- The node is closed with `end`. -/
def Closed (n : Node) : Prop := ∃ c, n.children.getLast? = some c ∧ c.kind = .keyword ∧ c.text = "end"

/-- The statements of a function stand behind its keyword, its parameters and the colon, and before `end`. -/
def statements (n : Node) : List Node := (n.children.drop 3).filter (·.kind != .keyword)

/-- The blocks that a child of a conditional is or has. -/
def ownBlocks (c : Node) : List Node :=
  if c.kind.isBranch then c.children.filter (·.kind == .thenBlock) else if c.kind = .thenBlock then [c] else []

/-- The blocks of a conditional: that of its condition, and those of its further branches. -/
def blocks (n : Node) : List Node := n.children.flatMap ownBlocks

/-- A node with children ends where one of them does. -/
def Snug (n : Node) : Prop := ∀ hi : Int, (∀ c ∈ n.children, c.span.stop ≤ hi) → n.span.stop ≤ hi

/-- A child of a conditional is a block or a branch that ends with it. -/
inductive EndsWith (b : Node) : Node → Prop
  | block (hk : b.kind = .thenBlock) : EndsWith b b
  | branch {c : Node} (hk : b.kind = .thenBlock) (hbranch : c.kind.isBranch = true) (hsnug : c.Snug)
      (hlast : c.children.getLast? = some b) : EndsWith b c

/-- A function or a conditional is closed, or it ends with its body, which has one statement at most. -/
structure Brief (n : Node) : Prop where
  function (hk : n.kind = .functionDef) : n.Closed ∨ n.Snug ∧ n.statements.length ≤ 1
  conditional (hk : n.kind = .ifExpr) : n.Closed ∨ n.Snug ∧
    ∃ b c, n.children.getLast? = some c ∧ EndsWith b c ∧ b.children.length ≤ 1

variable {n b c : Node} {cs : List Node} {src : Text}

theorem Brief.of_simple (hk : n.kind.isSimple = true) : n.Brief := by
  constructor <;> intro hkind <;> rw [hkind] at hk <;> cases hk

theorem getLast?_push (n c : Node) : (n.push c).children.getLast? = some c := List.getLast?_concat

theorem EndsWith.blocks (hlast : n.children.getLast? = some c) (h : EndsWith b c) : n.blocks.getLast? = some b := by
  have hown : (ownBlocks c).getLast? = some b := by
    cases h with
    | block hk =>
      rw [ownBlocks, hk, if_neg (by decide), if_pos rfl]
      rfl
    | branch hk hbranch _ hlast =>
      obtain ⟨before, hbefore⟩ := List.getLast?_eq_some_iff.mp hlast
      rw [ownBlocks, if_pos hbranch, hbefore, List.filter_append, List.filter_cons_of_pos (by rw [hk]; rfl)]
      exact List.getLast?_concat
  obtain ⟨before, hbefore⟩ := List.getLast?_eq_some_iff.mp hlast
  rw [Node.blocks, hbefore, List.flatMap_append, List.flatMap_singleton, List.getLast?_append, hown]
  rfl

theorem snug_single (kind : Kind) (c : Node) : (branch kind [c]).Snug := fun _ h => h c List.mem_cons_self

theorem Snug.push (h : n.Snug) (c : Node) : (n.push c).Snug := by
  intro hi hall
  obtain ⟨hn, hc⟩ := List.forall_mem_append.mp hall
  have hc := List.forall_mem_singleton.mp hc
  rcases push_span n c with ⟨-, hspan⟩ | hspan
  · rwa [hspan]
  · rw [hspan]
    exact Int.max_le.mpr ⟨h hi hn, hc⟩

theorem Snug.append (h : n.Snug) (cs : List Node) : (n.append cs).Snug := by
  induction cs generalizing n with
  | nil => exact h
  | cons c cs ih => exact ih (h.push c)

/-- If children stand one behind the other, the node ends where the last one does. -/
theorem Snug.stop_eq (h : n.Snug) (hplaced : n.Every (Placed src)) (hapart : n.Apart)
    (hlast : n.children.getLast? = some c) : n.span.stop = c.span.stop := by
  obtain ⟨hn, hparts⟩ := forall_preorder.mp hplaced
  refine Int.le_antisymm (h _ fun d hd => ?_) (hn.around c (List.mem_of_getLast? hlast)).2
  obtain ⟨first, rest, hchildren⟩ := List.exists_cons_of_ne_nil (List.ne_nil_of_mem hd)
  rw [Apart, hchildren] at hapart
  have hstop := (extent_around hapart (fun e he => (hparts e (hchildren ▸ he) e e.mem_preorder_self).start_le) d
    (hchildren ▸ hd)).2
  rw [hchildren] at hlast
  rwa [extent, hlast] at hstop

theorem EndsWith.stop_eq (h : EndsWith b c) (hplaced : c.Every (Placed src)) (hapart : c.Every Apart) :
    c.span.stop = b.span.stop := by
  cases h with
  | block => rfl
  | branch _ _ hsnug hlast => exact hsnug.stop_eq hplaced (forall_preorder.mp hapart).1 hlast

end Node

namespace Grammar
open Parsing
open Node

variable {setup : Setup} {exact : Prop} {s t : Snapshot} {n node whole : Node} {tok : Token} {closers : KindSet}
  {block : Bool} {stmts : List Node}

/-! ## Bodies -/

/-- A keyword of some kinds stands at an offset, which line ends are minded before. -/
def ClosesAt (setup : Setup) (closers : KindSet) (pos : Nat) : Prop :=
  ∃ accept bound, accept.has .newline = true ∧ closers.has (Token.scan setup.src pos accept bound).kind = true

theorem ClosesAt.mono {closers' : KindSet} {pos : Nat} (h : ClosesAt setup closers pos)
    (hsub : ∀ k, closers.has k = true → closers'.has k = true) : ClosesAt setup closers' pos := by
  obtain ⟨accept, bound, hline, hk⟩ := h
  exact ⟨accept, bound, hline, hsub _ hk⟩

theorem Looks.closesAt {accept : KindSet} (h : Looks setup exact s accept tok) (hparens : s.parens = 0)
    (hline : accept.has .newline = true) (hk : closers.has tok.kind = true) : ClosesAt setup closers s.pos := by
  obtain ⟨bound, -, -, rfl⟩ := h
  have haccepted : s.accepted accept = accept := by rw [Snapshot.accepted, hparens, if_neg (Nat.lt_irrefl 0)]
  exact ⟨_, _, haccepted.symm ▸ hline, hk⟩

/-- All questions from there find the same keyword, if they do not accept other readings of it. -/
theorem ClosesAt.looks (h : ClosesAt setup closers s.pos) (hclosers : ∀ k, closers.has k = true → k.isKeyword = true) :
    ∃ k, closers.has k = true ∧ ∀ accept tok, (∀ k ∈ Token.readingKinds, accept.has k = false) →
      Looks setup exact s accept tok → tok.kind = k := by
  obtain ⟨accept, bound, hline, hk⟩ := h
  refine ⟨_, hk, ?_⟩
  rintro accept' tok hbare ⟨bound', -, -, rfl⟩
  refine Token.scan_keyword hline (fun k hk => ?_) (hclosers _ hk)
  have hplain : ∀ k ∈ Token.readingKinds, k ≠ .newline := by decide
  rw [s.has_accepted _ (hplain k hk)]
  exact hbare k hk

/-- More than one statement of a body on one line was read only if the body is closed there. -/
@[reducible]
def Production.Inlines (setup : Setup) : (p : Production) → Snapshot → p.Answer → Snapshot → Prop
  | .inlineRest closers, s, rest, t => s.parens = 0 → rest.isSome = true → ClosesAt setup closers t.pos
  | .inlineBody closers, s, stmts, t => s.parens = 0 → stmts.length ≤ 1 ∨ ClosesAt setup closers t.pos
  | .body closers, _, (stmts, block), t => block = true ∨ stmts.length ≤ 1 ∨ ClosesAt setup closers t.pos
  | _, _, _, _ => True

theorem Reads.inlines {p : Production} {a : p.Answer} (h : Reads setup exact p s a t) : p.Inlines setup s a t := by
  have hseparators (closers : KindSet) : (separators ∪ closers).has .newline = true := by
    rw [KindSet.has_union]
    rfl
  induction h with
  | block => exact .inl rfl
  | noBody => exact .inr (.inl (Nat.zero_le _))
  | inlined _ _ _ _ ih => exact .inr (ih rfl)
  | several hfirst _ _ ih => exact fun hparens => .inr (ih (hfirst.progress.1.parens_eq.trans hparens) rfl)
  | single => exact fun _ => .inl (Nat.le_refl 1)
  | restClosed hlook hk => exact fun hparens _ => hlook.closesAt hparens (hseparators _) hk
  | restClosedNext _ _ _ hnext hclosed => exact fun hparens _ => hnext.closesAt hparens (newline_accepted _) hclosed
  | restOpen | restOpenNext => exact fun _ => nofun
  | restMore _ _ _ _ _ _ hstmt _ _ ih =>
    exact fun hparens hsome => ih (hstmt.progress.1.parens_eq.trans hparens) (Option.isSome_map.symm.trans hsome)
  | _ => exact trivial

theorem kwEnd_of_fnClosers {k : Token.Kind} (h : fnClosers.has k = true) : k = .kwEnd := by
  cases k <;> first | rfl | exact absurd h (by decide)

theorem fnClosers_sub (k : Token.Kind) (h : fnClosers.has k = true) : ifClosers.has k = true := by
  rw [kwEnd_of_fnClosers h]
  decide

theorem of_ifClosers {k : Token.Kind} (h : ifClosers.has k = true) : k = .kwElsif ∨ k = .kwElse ∨ k = .kwEnd := by
  cases k <;> first | exact absurd h (by decide) | decide

theorem bare_endStart (block : Bool) : ∀ k ∈ Token.readingKinds, (endStart block).has k = false := by
  cases block <;> decide

theorem bare_branchStart (block seenElse : Bool) :
    ∀ k ∈ Token.readingKinds, (branchStart block seenElse).has k = false := by
  cases block <;> cases seenElse <;> decide

theorem text_of_kwEnd {text : Text} (h : Token.Kind.kwEnd.Admits text) : text = "end" := by
  have hends : ∀ p ∈ Token.Kind.keywords, p.2 = .kwEnd → p.1 = "end" := by decide
  exact hends (text, .kwEnd) (Token.mem_of_lookup (h.keyword (.inl rfl))) rfl

/-- Without faults a construct is closed, or there is nothing to close it with and it needs nothing. -/
theorem CloseBody.closes (h : CloseBody setup exact s node block whole t) (ht : t.faults = []) :
    whole.Closed ∨ whole = node ∧ block = false ∧
      ∃ tok, Looks setup exact s (endStart block) tok ∧ tok.kind ≠ .kwEnd := by
  cases h with
  | closed hlook hk =>
    have hadmits := (hlook.stands (tok_ne hk Token.Kind.noConfusion)).admits
    rw [hk] at hadmits
    exact .inl ⟨_, getLast?_push _ _, rfl, text_of_kwEnd hadmits⟩
  | missing => exact absurd ht (complain_faults_ne_nil _ _ _)
  | without hlook hk hblock => exact .inr ⟨rfl, hblock, _, hlook, hk⟩

theorem CloseBody.kind_eq (h : CloseBody setup exact s node block whole t) : whole.kind = node.kind := by
  cases h <;> rfl

theorem Reads.function_brief (h : Reads setup exact (.functionDef tok) s n t) (ht : t.faults = []) : n.Brief := by
  cases h with
  | @functionDef _ s₁ _ s₃ _ _ list c _ stmts block hheld hk hparams hcolon hbody hclose =>
    have hkind : n.kind = .functionDef := hclose.kind_eq.trans (append_kind ..)
    refine ⟨fun _ => ?_, fun hif => Kind.noConfusion (hkind.symm.trans hif)⟩
    rcases hclose.closes ht with hclosed | ⟨rfl, rfl, tok', hlook, hend⟩
    · exact .inl hclosed
    · refine .inr ⟨(((snug_single _ _).push _).push _).append stmts, ?_⟩
      have hchildren : ((((branch .functionDef [leaf .keyword tok]).push (paramList list s₁.pos)).push c).append
          stmts).children.drop 3 = stmts := by
        rw [append_children]
        rfl
      rw [Node.statements, hchildren]
      refine Nat.le_trans (List.length_filter_le ..) ?_
      rcases hbody.inlines with hblock | hfew | hcloses
      · cases hblock
      · exact hfew
      · -- The body is closed where `end` was looked for, so it was found.
        obtain ⟨k, hk, hlooks⟩ := hcloses.looks fun k hk => kwEnd_of_fnClosers hk ▸ rfl
        exact absurd ((hlooks _ _ (bare_endStart false) hlook).trans (kwEnd_of_fnClosers hk)) hend

/-! ## Conditionals -/

/-- A conditional up to its last block. More than one statement stands there only if something is to follow. -/
structure Hanging (setup : Setup) (node : Node) (block : Bool) (pos : Nat) : Prop where
  kind_eq : node.kind = .ifExpr
  snug : node.Snug
  last : ∃ b c, node.children.getLast? = some c ∧ EndsWith b c ∧
    (block = true ∨ b.children.length ≤ 1 ∨ ClosesAt setup ifClosers pos)

theorem blockNode_eq (pos : Nat) (stmts : List Node) :
    (blockNode pos stmts).kind = .thenBlock ∧ (blockNode pos stmts).children = stmts := by
  rw [blockNode]
  split
  · rename_i hempty
    exact ⟨rfl, (List.isEmpty_iff.mp hempty).symm⟩
  · exact ⟨rfl, rfl⟩

/-- A further branch, up to and with the block of its body. -/
theorem Hanging.push {pos : Nat} {b : Bool} {branch : Node} (h : Hanging setup node block pos)
    (hbranch : branch.kind.isBranch = true) (hsnug : branch.Snug)
    (hbody : b = true ∨ stmts.length ≤ 1 ∨ ClosesAt setup ifClosers s.pos) :
    Hanging setup (node.push (branch.push (blockNode s.pos stmts))) (block || b) s.pos := by
  obtain ⟨hkind, hchildren⟩ := blockNode_eq s.pos stmts
  refine ⟨h.kind_eq, h.snug.push _, blockNode s.pos stmts, _, getLast?_push _ _,
    .branch hkind hbranch (hsnug.push _) (getLast?_push _ _), ?_⟩
  rw [hchildren, Bool.or_eq_true]
  exact hbody.imp_left .inr

/-- The further branches of a conditional, read without faults. -/
@[reducible]
def Production.Concludes (setup : Setup) : (p : Production) → Snapshot → p.Answer → Snapshot → Prop
  | .branches node block _, s, whole, t => t.faults = [] → Hanging setup node block s.pos → whole.Brief
  | _, _, _, _ => True

theorem Reads.concludes {p : Production} {a : p.Answer} (h : Reads setup exact p s a t) : p.Concludes setup s a t := by
  induction h with
  | elsif _ _ _ _ hbody _ _ _ ih =>
    exact fun ht hnode => ih ht (hnode.push rfl (((snug_single _ _).push _).push _) hbody.inlines)
  | otherwise _ _ _ hbody _ _ ih =>
    have hfew := hbody.inlines.imp_right (Or.imp_right fun hcloses => hcloses.mono fnClosers_sub)
    exact fun ht hnode => ih ht (hnode.push rfl ((snug_single _ _).push _) hfew)
  | @endIf s _ tok _ _ _ seenElse hlook helsif helse hclose =>
    intro ht hnode
    have hkind := hclose.kind_eq.trans hnode.kind_eq
    refine ⟨fun hfn => Kind.noConfusion (hkind.symm.trans hfn), fun _ => ?_⟩
    rcases hclose.closes ht with hclosed | ⟨rfl, rfl, tok', hlook', hend⟩
    · exact .inl hclosed
    · obtain ⟨b, c, hlast, hends, hblock | hfew | hcloses⟩ := hnode.last
      · cases hblock
      · exact .inr ⟨hnode.snug, b, c, hlast, hends, hfew⟩
      · -- Something closes the block where a further branch and then `end` were looked for.
        obtain ⟨k, hk, hlooks⟩ := hcloses.looks fun k hk => by rcases of_ifClosers hk with rfl | rfl | rfl <;> rfl
        rcases of_ifClosers hk with rfl | rfl | rfl
        · exact absurd (hlooks _ _ (bare_branchStart false seenElse) hlook) helsif
        · exact absurd (hlooks _ _ (bare_branchStart false seenElse) hlook) helse
        · exact absurd (hlooks _ _ (bare_endStart false) hlook') hend
  | _ => exact trivial

theorem Reads.conditional_brief (h : Reads setup exact (.ifExpr tok) s n t) (ht : t.faults = []) : n.Brief := by
  cases h with
  | @ifExpr _ _ _ s₃ _ _ _ _ _ stmts block _ _ _ _ hbody hbranches =>
    obtain ⟨hkind, hchildren⟩ := blockNode_eq s₃.pos stmts
    refine hbranches.concludes ht ⟨rfl, (((snug_single _ _).push _).push _).push _, blockNode s₃.pos stmts, _,
      getLast?_push _ _, .block hkind, ?_⟩
    rw [hchildren]
    exact hbody.inlines

/-! ## Parses -/

/-- The nodes of a parse, one behind the other. -/
theorem Outcome.spanned (h : Outcome setup exact stmts t) :
    SpannedAll setup (reach setup.src 0) .origin (stmts ++ unread setup t) (t.moveTo setup.src.length) := by
  have hstmts : SpannedAll setup (reach setup.src 0) .origin stmts t := h.reads.spanned (Nat.zero_le _)
  exact hstmts.append (.unread hstmts.bound) (reach_mono _ hstmts.le) (Nat.le_refl _)

/-- In a parse that reports no fault, a function that is not closed with `end` has one statement at most, and so has
the last block of such a conditional. Both end where it ends: what follows on the line stands outside of them. -/
theorem parse_inline_bodies (setup : Setup) (hfaults : (parse setup).faults = []) :
    ∀ n ∈ (parse setup).tree.preorder,
      (n.kind = .functionDef → ¬ n.Closed →
        n.statements.length ≤ 1 ∧ ∀ c, n.children.getLast? = some c → n.span.stop = c.span.stop) ∧
      (n.kind = .ifExpr → ¬ n.Closed →
        ∃ b, n.blocks.getLast? = some b ∧ b.children.length ≤ 1 ∧ n.span.stop = b.span.stop) := by
  obtain ⟨stmts, t, h⟩ := parse_outcome setup False fun hfalse => hfalse.elim
  have ht : t.faults = [] := h.faults_eq ▸ hfaults
  have hbrief : (wholeTree setup stmts t).Every Brief := h.quiet
    ⟨fun _ => .of_simple, fun _ _ _ _ => Reads.function_brief, fun _ _ _ _ => Reads.conditional_brief⟩ ht
  rw [h.tree_eq]
  intro n hn
  obtain ⟨hfunction, hconditional⟩ := hbrief n hn
  -- The program itself is neither, and spans are known of all that is below it.
  have hspans (hne : n.kind ≠ .program) : n.Every (Placed setup.src) ∧ n.Every Apart := by
    rcases mem_preorder.mp hn with rfl | ⟨c, hc, hn⟩
    · exact absurd rfl hne
    · have hlaid := h.spanned.laid c hc
      exact ⟨Every.of_mem hlaid.placed hn, Every.of_mem (hlaid.clean ht).2 hn⟩
  refine ⟨fun hk hopen => ?_, fun hk hopen => ?_⟩
  · obtain ⟨hplaced, hapart⟩ := hspans (hk ▸ Kind.noConfusion)
    obtain ⟨hsnug, hfew⟩ := (hfunction hk).resolve_left hopen
    exact ⟨hfew, fun c hlast => hsnug.stop_eq hplaced (forall_preorder.mp hapart).1 hlast⟩
  · obtain ⟨hplaced, hapart⟩ := hspans (hk ▸ Kind.noConfusion)
    obtain ⟨hsnug, b, c, hlast, hends, hfew⟩ := (hconditional hk).resolve_left hopen
    have hmem := List.mem_of_getLast? hlast
    refine ⟨b, hends.blocks hlast, hfew, (hsnug.stop_eq hplaced (forall_preorder.mp hapart).1 hlast).trans ?_⟩
    exact hends.stop_eq ((forall_preorder.mp hplaced).2 c hmem) ((forall_preorder.mp hapart).2 c hmem)

/-- A function that ends with its first statement; the second one is a statement of the program. -/
theorem parse_inline_bodies_function :
    let setup : Setup := { src := "fn: 1; 2" }
    (parse setup).faults = [] ∧ ∃ n m, (parse setup).tree.children = [n, m] ∧ n.kind = .functionDef ∧ ¬ n.Closed ∧
      n.statements.length ≤ 1 ∧ ∀ c, n.children.getLast? = some c → n.span.stop = c.span.stop := by
  intro setup
  have heval : (let p := parse setup; (p.faults, p.tree.children.map fun n => (n.kind, n.children.map (·.kind)))) =
      ([], [(.functionDef, [.keyword, .params, .colon, .number]), (.number, [])]) := by cbv
  obtain ⟨hfaults, hkinds⟩ := Prod.mk.inj heval
  obtain ⟨n, rest, htree, hn, hrest⟩ := List.map_eq_cons_iff.mp hkinds
  obtain ⟨m, rfl, -⟩ := List.map_eq_singleton_iff.mp hrest
  obtain ⟨hkind, hchildren⟩ := Prod.mk.inj hn
  have hopen : ¬ n.Closed := by
    rintro ⟨c, hlast, hkeyword, -⟩
    have hmap := congrArg (Option.map (·.kind)) hlast
    rw [← List.getLast?_map, hchildren, Option.map_some, hkeyword] at hmap
    cases hmap
  have hmem : n ∈ (parse setup).tree.children := by
    rw [htree]
    exact List.mem_cons_self
  exact ⟨hfaults, n, m, htree, hkind, hopen,
    (parse_inline_bodies setup hfaults n (within_child hmem).mem).1 hkind hopen⟩

end Grammar
end Bareword.Tree
