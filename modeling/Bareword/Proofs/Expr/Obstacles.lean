import Bareword.Proofs.Expr.Sound
import Bareword.Proofs.Tree.Shapes
import Mathlib.Logic.Relation
import Mathlib.Tactic.Tauto

/-! # What stands in the way of a tree

Any tree may be compiled, whether a source was read as it or not. What bars it is said here without
the order in which a tree is read: a node is barred by its own shape or text, or because a node that is
read below it is.

* `Node.Known`, `Node.parts`: the shapes that nodes may have, and the nodes that are read below one.
* `Node.Bars`: what bars a node by itself, by the code of the report.
* `Node.Involves`, `Node.Free`: what a node has read below it, and whether anything of that is barred.
* `OfTree.Settles`: what is read is not barred, and what stands in its way bars it.
* `OfTree.settled_ofNodeWithin`: a node stands for an expression if and only if it is free.
-/

namespace Bareword
set_option autoImplicit false
open Bareword.Tree (Node Kind)
open OfTree (Obstacle Result)
open Report (Code)

/-! ## Shapes -/

namespace Tree.Node

/-- The first child of a call is the name that it calls. -/
def HasCallee (n : Node) : Prop := ∃ name, n.child? 0 = some name ∧ name.kind = .identifier

/-- An argument has a value, and a name if it is to have one. -/
def IsArgument (arg : Node) : Prop :=
  arg.kind = .positionalArg ∧ (∃ value, arg.child? 0 = some value) ∨
    arg.kind = .namedArg ∧ (∃ name, arg.first? .argName = some name) ∧ ∃ value, arg.child? 1 = some value

/-- A name is called with arguments. -/
def IsCall (n : Node) : Prop := n.HasCallee ∧ ∀ arg ∈ n.children.drop 1, arg.IsArgument

def IsPiece (n : Node) : Prop :=
  n.kind = .stringFragment ∨ n.kind = .wordFragment ∨ n.kind = .escape ∨
    n.kind = .interpolation ∧ ∃ inner, n.children = [inner]

def Operates (n : Node) (spells : Text → Prop) : Prop :=
  ∃ left operator right, n.children = [left, operator, right] ∧ operator.kind = .operator ∧ spells operator.text

/-- A further branch of a conditional. -/
def IsAlternative (n : Node) : Prop :=
  n.kind = .elseExpr ∨ n.kind = .elsifExpr ∧ ∃ condition block, n.significant = [condition, block]

/-- The node has a shape that expressions have. -/
def Known (n : Node) : Prop :=
  match n.kind with
  | .number | .boolean | .identifier | .thenBlock => True
  | .regex => n.ClosesRegex
  | .string | .word => ∀ part ∈ n.children, part.IsPiece
  | .dotGet =>
    ∃ base field, n.child? 0 = some base ∧ n.child? 1 = some field ∧ base.kind = .identifier ∧ field.kind = .identifier
  | .binOp => n.Operates fun t => (OfTree.arithmetic? t).isSome = true
  | .conditionalOp => n.Operates fun t => t = "and" ∨ t = "or" ∨ (OfTree.comparison? t).isSome = true
  | .assign => ∃ name value, n.first? .assignable = some name ∧ n.child? 2 = some value
  | .parenExpr => n.children.length ≤ 1
  | .pipeExpr =>
    2 ≤ n.stages.length ∧ ∀ stage ∈ n.stages.drop 1,
      (stage.kind = .functionCall → stage.IsCall) ∧ (stage.kind = .callOrIdentifier → stage.HasCallee)
  | .functionDef =>
    ∃ params body, n.significant = params :: body ∧ params.kind = .params ∧
      ∀ p ∈ params.children, p.kind = .identifier
  | .functionCall => n.IsCall
  | .callOrIdentifier => n.HasCallee
  | .ifExpr =>
    ∃ condition block rest, n.significant = condition :: block :: rest ∧ block.kind = .thenBlock ∧
      ∀ part ∈ rest, part.IsAlternative
  | _ => False

/-! ## Parts -/

/-- What is read of an argument: its value, unless it is the placeholder of a pipe. -/
def argument (isStage : Bool) (arg : Node) : List Node :=
  (OfTree.argValue? arg).toList.filter fun value => !(isStage && OfTree.isPlaceholder value)

/-- What is read of a stage of a pipe. -/
def stageParts (stage : Node) : List Node :=
  if stage.kind = .functionCall then (stage.children.drop 1).flatMap (argument true) else []

/-- What is read of a part of a string or a word. -/
def pieceParts (part : Node) : List Node := if part.kind = .interpolation then part.children else []

/-- The block of the last alternative without a condition. -/
def otherwise (parts : List Node) (block : Option Node) : Option Node :=
  parts.foldl (fun block part => if part.kind = .elseExpr then part.first? .thenBlock else block) block

/-- What is read of a further branch of a conditional that has a condition. -/
def branchParts (part : Node) : List Node := if part.kind = .elsifExpr then part.significant else []

def operands (n : Node) : List Node := (n.child? 0).toList ++ (n.child? 2).toList

/-- The nodes below a node that are read as expressions. -/
def parts (n : Node) : List Node :=
  match n.kind with
  | .string | .word => n.children.flatMap pieceParts
  | .binOp | .conditionalOp => n.operands
  | .assign => (n.child? 2).toList
  | .parenExpr | .thenBlock => n.children
  | .pipeExpr => n.stages.take 1 ++ (n.stages.drop 1).flatMap stageParts
  | .functionDef => n.significant.drop 1
  | .functionCall => (n.children.drop 1).flatMap (argument false)
  | .ifExpr =>
    n.significant.take 2 ++ (n.significant.drop 2).flatMap branchParts ++
      (otherwise (n.significant.drop 2) none).toList
  | _ => []

/-- A node is read as an expression when another one is. -/
def Involves (n m : Node) : Prop := Relation.ReflTransGen (fun n part => part ∈ n.parts) n m

/-! ## Obstacles -/

/-- The text of a node is a number that is not too large. -/
def HasNumber (n : Node) : Prop := ∃ x, Decimal.read n.text = .exact x

/-- The text of a node is a pattern that can be matched, with flags that are some. -/
def HasRegex (n : Node) : Prop :=
  let body := Text.dropLead "//" n.text
  ∃ i v, Text.findLast? "//" body = some i ∧
    (∀ r ∈ Text.runes (body.drop (i + 2)), r.code < 128 ∧ OfTree.regexFlags.contains r.code.toUInt8 = true) ∧
      Value.ofLiteral (.ofRegex (body.take i) (body.drop (i + 2))) = .ok v

/-- What bars a node, apart from the nodes that are read below it, by the code of the report. There is
no code for an empty call that a value is piped into, which is not reported. -/
def Bars (n : Node) : Option Code → Prop
  | some .unknownNode => ¬ n.Known
  | some .badNumber => n.kind = .number ∧ ¬ n.HasNumber
  | some .badRegex => n.kind = .regex ∧ n.ClosesRegex ∧ ¬ n.HasRegex
  | some .badPipe =>
    n.kind = .pipeExpr ∧ ∃ stage ∈ n.stages.drop 1, stage.kind ≠ .functionCall ∧ stage.kind ≠ .callOrIdentifier
  | none => n.kind = .pipeExpr ∧ ∃ stage ∈ n.stages.drop 1, stage.kind = .functionCall ∧ stage.children = []
  | _ => False

/-- Nothing that the node involves is barred. -/
def Free (n : Node) : Prop := ∀ m, n.Involves m → ∀ code, ¬ m.Bars code

end Tree.Node

namespace OfTree

/-- The code that an obstacle is reported with, if it is. -/
def Obstacle.code? : Obstacle → Option Code
  | .fault code _ _ _ => some code
  | .emptyStage => none

/-- What is reported is reported at a node of the tree. -/
def Obstacle.LiesIn (o : Obstacle) (n : Node) : Prop :=
  ∀ code span message hasCause, o = .fault code span message hasCause → ∃ m ∈ n.preorder, m.span = span

theorem Obstacle.LiesIn.fault {m n : Node} {code : Code} {message : Text} {hasCause : Bool} (hm : m ∈ n.preorder) :
    (Obstacle.fault code m.span message hasCause).LiesIn n := by
  rintro _ _ _ _ ⟨⟩
  exact ⟨m, hm, rfl⟩

/-! ## Settling -/

/-- Something is read of a node only if nothing bars it and all parts of it are read, and what stands
in the way bars it or stands in the way of one of the parts. -/
structure Settles (sub : Node → Result Expr) (n : Node) {α : Type} (parts : List Node) (bars : Option Code → Prop)
    (r : Result α) : Prop where
  ok : ∀ a, r = .ok a → (∀ code, ¬ bars code) ∧ ∀ part ∈ parts, ∃ e, sub part = .ok e
  error : ∀ o, r = .error o → bars o.code? ∧ o.LiesIn n ∨ ∃ part ∈ parts, sub part = .error o

/-- Nothing but an unknown shape bars a node, and it is barred unless the condition holds. -/
def Unless (c : Prop) (code : Option Code) : Prop := code = some .unknownNode ∧ ¬ c

theorem unless_true {code : Option Code} : Unless True code ↔ False := by
  simp [Unless]

theorem unless_forall {ns : List Node} {c : Node → Prop} {code : Option Code} :
    Unless (∀ n ∈ ns, c n) code ↔ ∃ n ∈ ns, Unless (c n) code := by
  simp only [Unless]
  push Not
  tauto

section
variable {sub : Node → Result Expr} {n : Node} {α β : Type} {parts parts' : List Node}
  {bars bars' : Option Code → Prop} {c : Prop}

theorem Settles.pure (a : α) (h : c) : Settles sub n [] (Unless c) (.ok a : Result α) where
  ok _ _ := ⟨fun _ hcode => hcode.2 h, List.forall_mem_nil _⟩
  error := nofun

theorem Settles.refuse {o : Obstacle} (h : bars o.code?) (hin : o.LiesIn n) :
    Settles sub n parts bars (.error o : Result α) where
  ok := nofun
  error := by
    rintro _ ⟨⟩
    exact .inl ⟨h, hin⟩

theorem Settles.misshapen {m : Node} {message : Text} (h : ¬ c) (hm : m ∈ n.preorder) :
    Settles sub n parts (Unless c) (misshapen m message : Result α) := .refuse ⟨rfl, h⟩ (.fault hm)

theorem Settles.part (part : Node) : Settles sub n [part] (Unless True) (sub part) where
  ok e he := ⟨fun _ => unless_true.mp, List.forall_mem_singleton.mpr ⟨e, he⟩⟩
  error _ ho := .inr ⟨part, List.mem_singleton_self part, ho⟩

theorem Settles.imp {r : Result α} (h : Settles sub n parts bars r) (hparts : ∀ p, p ∈ parts' ↔ p ∈ parts)
    (hbars : ∀ code, bars code → bars' code) (hsome : ∀ code, bars' code → ∃ code', bars code') :
    Settles sub n parts' bars' r where
  ok a ha := by
    obtain ⟨hfree, hread⟩ := h.ok a ha
    refine ⟨fun code hcode => ?_, fun p hp => hread p ((hparts p).mp hp)⟩
    obtain ⟨code', hcode'⟩ := hsome code hcode
    exact hfree code' hcode'
  error o ho := by
    rcases h.error o ho with ⟨hcode, hin⟩ | ⟨p, hp, hpo⟩
    · exact .inl ⟨hbars _ hcode, hin⟩
    · exact .inr ⟨p, (hparts p).mpr hp, hpo⟩

theorem Settles.congr {r : Result α} (h : Settles sub n parts bars r) (hparts : ∀ p, p ∈ parts' ↔ p ∈ parts)
    (hbars : ∀ code, bars' code ↔ bars code) : Settles sub n parts' bars' r :=
  h.imp hparts (fun code => (hbars code).mpr) fun code hcode => ⟨code, (hbars code).mp hcode⟩

theorem Settles.bind {x : Result α} {f : α → Result β} (hx : Settles sub n parts bars x)
    (hf : ∀ a, x = .ok a → Settles sub n parts' bars' (f a)) :
    Settles sub n (parts ++ parts') (fun code => bars code ∨ bars' code) (x >>= f) := by
  constructor
  · intro b hb
    obtain ⟨a, ha, hb⟩ := bind_eq_ok.mp hb
    obtain ⟨hfree, hread⟩ := hx.ok a ha
    obtain ⟨hfree', hread'⟩ := (hf a ha).ok b hb
    exact ⟨fun code hcode => hcode.elim (hfree code) (hfree' code), List.forall_mem_append.mpr ⟨hread, hread'⟩⟩
  · intro o ho
    cases hrun : x with
    | error o' =>
      rw [hrun] at ho
      cases ho
      rcases hx.error o hrun with ⟨hcode, hin⟩ | ⟨p, hp, hpo⟩
      · exact .inl ⟨.inl hcode, hin⟩
      · exact .inr ⟨p, List.mem_append_left _ hp, hpo⟩
    | ok a =>
      rw [hrun] at ho
      rcases (hf a hrun).error o ho with ⟨hcode, hin⟩ | ⟨p, hp, hpo⟩
      · exact .inl ⟨.inr hcode, hin⟩
      · exact .inr ⟨p, List.mem_append_right _ hp, hpo⟩

theorem Settles.map {x : Result α} (hx : Settles sub n parts bars x) (f : α → β) :
    Settles sub n parts bars (x >>= fun a => .ok (f a)) :=
  (hx.bind fun a _ => .pure (f a) trivial).congr (by simp) (by simp [unless_true])

theorem Settles.mapM {f : α → Result β} {as : List α} {partsOf : α → List Node} {barsOf : α → Option Code → Prop}
    (h : ∀ a ∈ as, Settles sub n (partsOf a) (barsOf a) (f a)) :
    Settles sub n (as.flatMap partsOf) (fun code => ∃ a ∈ as, barsOf a code) (as.mapM f) := by
  induction as with
  | nil => exact (Settles.pure [] trivial).congr (by simp) (by simp [unless_true])
  | cons a as ih =>
    obtain ⟨ha, has⟩ := List.forall_mem_cons.mp h
    rw [List.mapM_cons]
    exact (ha.bind fun b _ => (ih has).map (b :: ·)).congr (by simp) (by simp)

/-! ## Literals -/

theorem settles_number : Settles sub n [] (fun code => code = some .badNumber ∧ ¬ n.HasNumber) (number n) := by
  rw [number]
  split
  · rename_i x hx
    have hhas : n.HasNumber := ⟨x, hx⟩
    exact (Settles.pure _ hhas).congr (fun _ => Iff.rfl) (by simp [Unless, hhas])
  · rename_i hx
    exact .refuse ⟨rfl, fun ⟨x, h⟩ => nomatch hx.symm.trans h⟩ (.fault n.mem_preorder_self)
  · rename_i hx
    exact .refuse ⟨rfl, fun ⟨x, h⟩ => nomatch hx.symm.trans h⟩ (.fault n.mem_preorder_self)

theorem regexInline_isOk (inline : Text) (rs : List Rune) :
    (∃ out, regexInline inline rs = .ok out) ↔
      ∀ r ∈ rs, r.code < 128 ∧ regexFlags.contains r.code.toUInt8 = true := by
  induction rs generalizing inline with
  | nil => simp [regexInline]
  | cons r rs ih =>
    rw [regexInline, List.forall_mem_cons]
    split
    · rename_i hbad
      constructor
      · rintro ⟨out, ⟨⟩⟩
      · rintro ⟨⟨hsmall, hflag⟩, -⟩
        rcases hbad with hbig | hnone
        · omega
        · exact absurd hflag hnone
    · rename_i hgood
      push Not at hgood
      exact (ih _).trans (and_iff_right hgood).symm

theorem ofRegex_isOk (pattern flags : Text) :
    (∃ v, Value.ofLiteral (.ofRegex pattern flags) = .ok v) ↔
      (Pattern.check (Pattern.expression pattern flags)).isOk := by
  rw [Value.ofLiteral]
  simp only [Literal.ofRegex]
  cases Pattern.check (Pattern.expression pattern flags) <;> simp [Except.isOk, Except.toBool]

/-- The pattern that a literal is checked with is as good as the one that it is run with. -/
theorem hasRegex_iff {i : Nat} (hi : Text.findLast? "//" (Text.dropLead "//" n.text) = some i) :
    n.HasRegex ↔ ∃ inline, regexInline [] (Text.runes ((Text.dropLead "//" n.text).drop (i + 2))) = .ok inline ∧
      (Pattern.check (Pattern.withFlags inline ((Text.dropLead "//" n.text).take i))).isOk := by
  have hcheck {inline pattern flags : Text} (h : regexInline [] (Text.runes flags) = .ok inline) :
      (Pattern.check (Pattern.withFlags inline pattern)).isOk =
        (Pattern.check (Pattern.expression pattern flags)).isOk := by
    have hperm := Pattern.perm_inlineFlags h
    exact Pattern.check_withFlags hperm (fun b hb => List.mem_of_mem_filter (hperm.mem_iff.mp hb)) pattern
  constructor
  · rintro ⟨i', v, hi', hflags, hv⟩
    obtain rfl := Option.some.inj (hi'.symm.trans hi)
    obtain ⟨inline, hinline⟩ := (regexInline_isOk [] _).mpr hflags
    exact ⟨inline, hinline, (hcheck hinline).trans ((ofRegex_isOk _ _).mp ⟨v, hv⟩)⟩
  · rintro ⟨inline, hinline, hok⟩
    obtain ⟨v, hv⟩ := (ofRegex_isOk _ _).mpr ((hcheck hinline).symm.trans hok)
    exact ⟨i, v, hi, (regexInline_isOk [] _).mp ⟨inline, hinline⟩, hv⟩

theorem settles_regex :
    Settles sub n [] (fun code => Unless n.ClosesRegex code ∨ code = some .badRegex ∧ n.ClosesRegex ∧ ¬ n.HasRegex)
      (regex n) := by
  rw [regex]
  dsimp only
  cases hi : Text.findLast? "//" (Text.dropLead "//" n.text) with
  | none =>
    have hopen : ¬ n.ClosesRegex := by simp [Node.ClosesRegex, hi]
    exact (Settles.misshapen hopen n.mem_preorder_self).congr (fun _ => Iff.rfl) (by simp [hopen])
  | some i =>
    have hcloses : n.ClosesRegex := by simp [Node.ClosesRegex, hi]
    have hiff := hasRegex_iff hi
    dsimp only
    cases hinline : regexInline [] (Text.runes ((Text.dropLead "//" n.text).drop (i + 2))) with
    | error f => exact .refuse (.inr ⟨rfl, hcloses, by simp [hiff, hinline]⟩) (.fault n.mem_preorder_self)
    | ok inline =>
      dsimp only
      cases hcheck : Pattern.check (Pattern.withFlags inline ((Text.dropLead "//" n.text).take i)) with
      | error e =>
        have hnone : ¬ n.HasRegex := by simp [hiff, hinline, hcheck, Except.isOk, Except.toBool]
        exact .refuse (.inr ⟨rfl, hcloses, hnone⟩) (.fault n.mem_preorder_self)
      | ok u =>
        have hhas : n.HasRegex := hiff.mpr ⟨inline, hinline, by rw [hcheck]; rfl⟩
        exact (Settles.pure _ hhas).congr (fun _ => Iff.rfl) (by simp [Unless, hcloses, hhas])

theorem settles_fragment {piece : Node} (hpiece : piece ∈ n.children) :
    Settles sub n piece.pieceParts (Unless piece.IsPiece) (fragment sub n piece) := by
  have hin : piece ∈ n.preorder := (Node.within_child hpiece).mem
  rw [fragment, Node.pieceParts, Node.IsPiece]
  cases hkind : piece.kind with
  | stringFragment | wordFragment | escape => exact (Settles.pure _ trivial).congr (by simp) (by simp)
  | interpolation =>
    dsimp only
    rcases hchildren : piece.children with _ | ⟨inner, _ | ⟨second, rest⟩⟩
    · exact .misshapen (by simp) hin
    · exact (Settles.part inner).congr (by simp) (by simp)
    · exact .misshapen (by simp) hin
  | _ => exact .misshapen (by simp) hin

theorem settles_fragments :
    Settles sub n (n.children.flatMap Node.pieceParts) (Unless (∀ piece ∈ n.children, piece.IsPiece))
      (fragments sub n) := by
  rw [fragments]
  split
  · -- Text that stands for itself is taken as a whole, and no part of it is read.
    rename_i hall
    have hkind (piece : Node) (h : piece ∈ n.children) : piece.kind = .stringFragment ∨ piece.kind = .wordFragment := by
      simpa [isFragment] using List.all_eq_true.mp hall piece h
    have hpieces : ∀ piece ∈ n.children, piece.IsPiece := fun piece h =>
      (hkind piece h).elim .inl fun hword => .inr (.inl hword)
    refine (Settles.pure _ hpieces).congr (fun p => ?_) fun _ => Iff.rfl
    rw [List.mem_flatMap]
    refine iff_of_false ?_ List.not_mem_nil
    rintro ⟨piece, hpiece, hp⟩
    rcases hkind piece hpiece with hk | hk <;> simp [Node.pieceParts, hk] at hp
  · exact ((Settles.mapM fun piece hpiece => settles_fragment hpiece).map _).congr (fun _ => Iff.rfl)
      fun code => unless_forall

/-! ## Operators and names -/

theorem operands_of_operates {spells : Text → Prop} (h : n.Operates spells) :
    ∃ left operator right, operands n = .ok (left, operator, right) ∧ spells operator.text ∧
      operator ∈ n.preorder ∧ n.operands = [left, right] := by
  obtain ⟨left, operator, right, hchildren, hoperator, hspells⟩ := h
  have hin : operator ∈ n.children := by simp [hchildren]
  refine ⟨left, operator, right, ?_, hspells, (Node.within_child hin).mem, ?_⟩
  · rw [operands, hchildren]
    exact if_pos hoperator
  · simp [Node.operands, Node.child?, hchildren]

/-- What is read of a node with an operator depends on how that is spelled. -/
theorem settles_operands {spells : Text → Prop} {f : Node × Node × Node → Result Expr}
    (hf : ∀ left operator right, n.operands = [left, right] → operator ∈ n.preorder →
      Settles sub n [left, right] (Unless (spells operator.text)) (f (left, operator, right))) :
    Settles sub n n.operands (Unless (n.Operates spells)) (operands n >>= f) := by
  by_cases hshape : n.Operates fun _ => True
  · obtain ⟨left, operator, right, hread, -, hin, hparts⟩ := operands_of_operates hshape
    have hspells : n.Operates spells ↔ spells operator.text := by
      have hchildren := operands_eq_ok hread
      obtain ⟨_, _, _, hchildren', hoperator, -⟩ := hshape
      cases hchildren.symm.trans hchildren'
      simp [Node.Operates, hchildren, hoperator]
    rw [hread, hparts, hspells]
    exact hf left operator right hparts hin
  · have hmalformed : operands n = misshapen n ("malformed " ++ n.kind.text) := by
      rw [operands]
      split
      · rename_i left operator right hchildren
        exact if_neg fun hoperator => hshape ⟨left, operator, right, hchildren, hoperator, trivial⟩
      · rfl
    rw [hmalformed]
    exact .misshapen (fun ⟨l, o, r, hchildren, ho, _⟩ => hshape ⟨l, o, r, hchildren, ho, trivial⟩) n.mem_preorder_self

theorem settles_both (left right : Node) (f : Expr → Expr → Expr) (h : c) :
    Settles sub n [left, right] (Unless c) (sub left >>= fun l => sub right >>= fun r => .ok (f l r)) :=
  ((Settles.part left).bind fun l _ => (Settles.part right).map (f l)).congr (by simp) (by simp [Unless, h])

theorem settles_binOp :
    Settles sub n n.operands (Unless (n.Operates fun t => (arithmetic? t).isSome = true)) (binOp sub n) := by
  refine settles_operands fun left operator right _ hin => ?_
  dsimp only
  cases hop : arithmetic? operator.text with
  | none => exact .misshapen (by simp) hin
  | some op => exact settles_both left right _ rfl

theorem settles_conditionalOp :
    Settles sub n n.operands
      (Unless (n.Operates fun t => t = "and" ∨ t = "or" ∨ (comparison? t).isSome = true)) (conditionalOp sub n) := by
  refine settles_operands fun left operator right _ hin => ?_
  dsimp only
  split
  · rename_i hand
    exact settles_both left right _ (.inl hand)
  split
  · rename_i hor
    exact settles_both left right _ (.inr (.inl hor))
  · rename_i hand hor
    cases hop : comparison? operator.text with
    | none => exact .misshapen (by simp [hand, hor]) hin
    | some op => exact settles_both left right _ (.inr (.inr rfl))

theorem settles_dotGet :
    Settles sub n [] (Unless (∃ base field, n.child? 0 = some base ∧ n.child? 1 = some field ∧
      base.kind = .identifier ∧ field.kind = .identifier)) (dotGet n) := by
  rw [dotGet]
  split
  · rename_i base field hbase hfield
    split
    · rename_i hkinds
      exact .pure _ ⟨base, field, hbase, hfield, hkinds⟩
    · rename_i hkinds
      exact .misshapen (by simpa [hbase, hfield] using hkinds) n.mem_preorder_self
  · rename_i hnone
    exact .misshapen (fun ⟨base, field, hbase, hfield, _⟩ => hnone base field hbase hfield) n.mem_preorder_self

theorem settles_assignment :
    Settles sub n (n.child? 2).toList
      (Unless (∃ name value, n.first? .assignable = some name ∧ n.child? 2 = some value)) (assignment sub n) := by
  rw [assignment]
  split
  · rename_i name value hname hvalue
    have hshape : ∃ name value, n.first? .assignable = some name ∧ n.child? 2 = some value :=
      ⟨name, value, hname, hvalue⟩
    exact ((Settles.part value).map _).congr (by simp [hvalue]) fun _ => by rw [eq_true hshape]
  · rename_i hnone
    exact .misshapen (fun ⟨name, value, hname, hvalue⟩ => hnone name value hname hvalue) n.mem_preorder_self

theorem settles_paren : Settles sub n n.children (Unless (n.children.length ≤ 1)) (paren sub n) := by
  rw [paren]
  rcases hchildren : n.children with _ | ⟨inner, _ | ⟨second, rest⟩⟩
  · exact .pure _ (by simp)
  · exact (Settles.part inner).congr (by simp) (by simp)
  · exact .misshapen (by simp) n.mem_preorder_self

/-! ## Conditionals and functions -/

theorem settles_branch (condition block : Node) :
    Settles sub n [condition, block] (Unless True) (branch sub condition block) :=
  ((Settles.part condition).bind fun a _ => (Settles.part block).map (Branch.mk a)).congr (by simp)
    (by simp [unless_true])

/-- Once the branches with conditions were read, the block of the last alternative is left. -/
theorem otherwise_of_branches {alternatives : List Node} {block last : Option Node} {bs : List Branch}
    (h : branches sub alternatives block = .ok (bs, last)) : last = Node.otherwise alternatives block := by
  induction alternatives generalizing block bs with
  | nil =>
    cases h
    rfl
  | cons part rest ih =>
    rw [branches] at h
    rw [Node.otherwise, List.foldl_cons]
    cases hkind : part.kind with
    | elsifExpr =>
      rw [hkind] at h
      dsimp only at h
      split at h
      · obtain ⟨b, -, h⟩ := bind_eq_ok.mp h
        obtain ⟨⟨bs', last'⟩, hrest, hlast⟩ := bind_eq_ok.mp h
        cases hlast
        exact ih hrest
      · cases h
    | elseExpr =>
      rw [hkind] at h
      exact ih h
    | _ =>
      rw [hkind] at h
      cases h

theorem settles_branches (alternatives : List Node) (block : Option Node)
    (hin : ∀ part ∈ alternatives, part ∈ n.preorder) :
    Settles sub n (alternatives.flatMap Node.branchParts) (Unless (∀ part ∈ alternatives, part.IsAlternative))
      (branches sub alternatives block) := by
  induction alternatives generalizing block with
  | nil => exact .pure _ (List.forall_mem_nil _)
  | cons part rest ih =>
    obtain ⟨hpart, hrest⟩ := List.forall_mem_cons.mp hin
    rw [branches, List.flatMap_cons, List.forall_mem_cons, Node.branchParts, Node.IsAlternative]
    cases hkind : part.kind with
    | elsifExpr =>
      dsimp only
      rcases hsignificant : part.significant with _ | ⟨condition, _ | ⟨second, _ | ⟨third, more⟩⟩⟩
      case cons.cons.nil =>
        exact ((settles_branch condition second).bind fun b _ => (ih block hrest).map _).congr (by simp)
          (by simp [unless_true])
      all_goals exact .misshapen (by simp) hpart
    | elseExpr => exact (ih (part.first? .thenBlock) hrest).congr (by simp) (by simp)
    | _ => exact .misshapen (by simp) hpart

theorem conditional_eq {condition block : Node} {rest : List Node}
    (hsignificant : n.significant = condition :: block :: rest) (hblock : block.kind = .thenBlock) :
    conditional sub n = branch sub condition block >>= fun b => branches sub rest none >>= fun found =>
      found.2.elim (.ok (Expr.choose n.span (b :: found.1) (.literal n.span .null)))
        fun block => sub block >>= fun e => .ok (Expr.choose n.span (b :: found.1) e) := by
  rw [conditional, hsignificant]
  dsimp only
  rw [if_pos hblock]
  refine bind_congr fun b => bind_congr fun found => ?_
  cases found.2 <;> rfl

theorem settles_elim {part found : Option Node} (h : found = part) (e : Expr) (f : Expr → Expr) :
    Settles sub n part.toList (Unless True) (found.elim (.ok e) fun part => sub part >>= fun e => .ok (f e)) := by
  subst h
  cases found with
  | none => exact .pure _ trivial
  | some part => exact (Settles.part part).map _

theorem settles_conditional :
    Settles sub n
      (n.significant.take 2 ++ (n.significant.drop 2).flatMap Node.branchParts ++
        (Node.otherwise (n.significant.drop 2) none).toList)
      (Unless (∃ condition block rest, n.significant = condition :: block :: rest ∧ block.kind = .thenBlock ∧
        ∀ part ∈ rest, part.IsAlternative)) (conditional sub n) := by
  have hin : ∀ part ∈ n.significant, part ∈ n.preorder := fun part hpart =>
    (Node.within_child (Node.mem_of_significant hpart)).mem
  rcases hsignificant : n.significant with _ | ⟨condition, _ | ⟨block, rest⟩⟩
  case cons.cons =>
    by_cases hblock : block.kind = .thenBlock
    · have hrest : ∀ part ∈ rest, part ∈ n.preorder := fun part hpart => hin part (by simp [hsignificant, hpart])
      rw [conditional_eq hsignificant hblock]
      exact ((settles_branch condition block).bind fun b _ =>
        (settles_branches rest none hrest).bind fun found hfound =>
          settles_elim (otherwise_of_branches hfound) _ _).congr (by simp) (by simp [unless_true, hblock])
    · rw [conditional, hsignificant]
      dsimp only
      rw [if_neg hblock]
      exact .misshapen (by simpa using fun h => absurd h hblock) n.mem_preorder_self
  all_goals
    rw [conditional, hsignificant]
    exact .misshapen (by simp) n.mem_preorder_self

theorem settles_param {p : Node} (hin : p ∈ n.preorder) :
    Settles sub n [] (Unless (p.kind = .identifier)) (param p) := by
  rw [param]
  split
  · rename_i hkind
    exact .pure _ hkind
  · rename_i hkind
    exact .misshapen hkind hin

theorem settles_mapM_sub (ns : List Node) : Settles sub n ns (Unless True) (ns.mapM sub) :=
  (Settles.mapM fun m _ => Settles.part m).congr (by simp) (by simp [unless_true])

theorem settles_functionOf :
    Settles sub n (n.significant.drop 1)
      (Unless (∃ params body, n.significant = params :: body ∧ params.kind = .params ∧
        ∀ p ∈ params.children, p.kind = .identifier)) (functionOf sub n) := by
  rw [functionOf]
  rcases hsignificant : n.significant with _ | ⟨params, body⟩
  · exact .misshapen (by simp) n.mem_preorder_self
  · have hparams : params ∈ n.children := Node.mem_of_significant (by simp [hsignificant])
    dsimp only
    split
    · rename_i hkind
      have hnames : Settles sub n [] (Unless (∀ p ∈ params.children, p.kind = .identifier))
          (params.children.mapM param) :=
        (Settles.mapM fun p hp => settles_param
          ((Node.within_child hparams).nodes p (Node.within_child hp).mem)).congr (by simp) fun code => unless_forall
      exact (hnames.bind fun names _ => (settles_mapM_sub body).map _).congr (by simp) (by simp [unless_true, hkind])
    · rename_i hkind
      exact .misshapen (by simp [hkind]) n.mem_preorder_self

/-! ## Calls and pipes -/

theorem settles_argument (isStage : Bool) (arg : Node) :
    Settles sub n (arg.argument isStage) (Unless (∃ value, argValue? arg = some value))
      (argument sub n isStage arg) := by
  rw [argument, Node.argument]
  cases hvalue : argValue? arg with
  | none => exact .misshapen (by simp) n.mem_preorder_self
  | some value =>
    dsimp only
    split
    · rename_i hplaceholder
      exact (Settles.pure _ trivial).congr (by simpa using hplaceholder) (by simp)
    · rename_i hread
      exact ((Settles.part value).map _).congr (by simpa [or_iff_not_imp_left] using hread) (by simp)

theorem settles_namedArgument (isStage : Bool) {arg : Node} (hin : arg ∈ n.preorder) :
    Settles sub n (arg.argument isStage)
      (Unless ((∃ name, arg.first? .argName = some name) ∧ ∃ value, argValue? arg = some value))
      (namedArgument sub n isStage arg) := by
  rw [namedArgument]
  cases hname : arg.first? .argName with
  | none => exact .misshapen (by simp) hin
  | some name => exact ((settles_argument isStage arg).map _).congr (fun _ => Iff.rfl) (by simp)

theorem isArgument_of_positional {arg : Node} (h : arg.kind = .positionalArg) :
    arg.IsArgument ↔ ∃ value, argValue? arg = some value := by
  simp [Node.IsArgument, argValue?, h]

theorem isArgument_of_named {arg : Node} (h : arg.kind = .namedArg) :
    arg.IsArgument ↔ (∃ name, arg.first? .argName = some name) ∧ ∃ value, argValue? arg = some value := by
  simp [Node.IsArgument, argValue?, h]

/-- The arguments of one kind are read one after the other. -/
theorem settles_ofKind {isStage : Bool} {kind : Kind} {args : List Node} {f : Node → Result β}
    (h : ∀ arg ∈ args, arg.kind = kind → Settles sub n (arg.argument isStage) (Unless arg.IsArgument) (f arg)) :
    Settles sub n ((args.filter (·.kind == kind)).flatMap (Node.argument isStage))
      (Unless (∀ arg ∈ args.filter (·.kind == kind), arg.IsArgument)) ((args.filter (·.kind == kind)).mapM f) := by
  refine (Settles.mapM fun arg harg => ?_).congr (fun _ => Iff.rfl) fun code => unless_forall
  obtain ⟨hmem, hk⟩ := List.mem_filter.mp harg
  exact h arg hmem (eq_of_beq hk)

/-- Arguments with names are read after those without, which bars nothing more and nothing less. -/
theorem settles_arguments (isStage : Bool) (call : Node) (name : Text) {args : List Node}
    (hin : ∀ arg ∈ args, arg ∈ n.preorder) :
    Settles sub n (args.flatMap (Node.argument isStage)) (Unless (∀ arg ∈ args, arg.IsArgument))
      (arguments sub n isStage call name args) := by
  rw [arguments]
  cases hother : args.find? fun a => a.kind != .positionalArg && a.kind != .namedArg with
  | some other =>
    have hmem := List.mem_of_find?_eq_some hother
    have hkind := List.find?_some hother
    refine .misshapen (fun hall => ?_) (hin other hmem)
    rcases hall other hmem with ⟨hk, -⟩ | ⟨hk, -⟩ <;> simp [hk] at hkind
  | none =>
    have hkinds (arg : Node) (h : arg ∈ args) : arg.kind = .positionalArg ∨ arg.kind = .namedArg := by
      have hk := List.find?_eq_none.mp hother arg h
      simpa [← or_iff_not_imp_left] using hk
    have hpositional : Settles sub n ((args.filter (·.kind == .positionalArg)).flatMap (Node.argument isStage))
        (Unless (∀ arg ∈ args.filter (·.kind == .positionalArg), arg.IsArgument))
        ((args.filter (·.kind == .positionalArg)).mapM (argument sub n isStage)) := by
      refine settles_ofKind fun arg _ hk => ?_
      rw [isArgument_of_positional hk]
      exact settles_argument isStage arg
    have hnamed : Settles sub n ((args.filter (·.kind == .namedArg)).flatMap (Node.argument isStage))
        (Unless (∀ arg ∈ args.filter (·.kind == .namedArg), arg.IsArgument))
        ((args.filter (·.kind == .namedArg)).mapM (namedArgument sub n isStage)) := by
      refine settles_ofKind fun arg harg hk => ?_
      rw [isArgument_of_named hk]
      exact settles_namedArgument isStage (hin arg harg)
    -- Each argument is of one of the two kinds, so nothing is left out.
    have hboth {P : Node → Prop} :
        (∃ arg ∈ args, P arg) ↔ (∃ arg ∈ args.filter (·.kind == .positionalArg), P arg) ∨
          ∃ arg ∈ args.filter (·.kind == .namedArg), P arg := by
      constructor
      · rintro ⟨arg, harg, hP⟩
        exact (hkinds arg harg).imp (fun hk => ⟨arg, by simp [harg, hk], hP⟩) fun hk => ⟨arg, by simp [harg, hk], hP⟩
      · rintro (⟨arg, harg, hP⟩ | ⟨arg, harg, hP⟩) <;> exact ⟨arg, List.mem_of_mem_filter harg, hP⟩
    refine (hpositional.bind fun positional _ => hnamed.map (Call.mk call.span name positional)).congr (fun p => ?_)
      fun code => ?_
    · rw [List.mem_append, List.mem_flatMap, List.mem_flatMap, List.mem_flatMap]
      exact hboth
    · rw [unless_forall, unless_forall, unless_forall]
      exact hboth

/-- What is read of a node that starts with a name depends on that. -/
theorem settles_callee {f : Text → Result α} (hf : ∀ name, Settles sub n parts (Unless c) (f name)) {call : Node}
    (hin : call ∈ n.preorder) : Settles sub n parts (Unless (call.HasCallee ∧ c)) (callee call >>= f) := by
  rw [callee]
  cases hname : call.child? 0 with
  | none => exact .misshapen (by simp [Node.HasCallee, hname]) hin
  | some name =>
    dsimp only
    split
    · rename_i hkind
      have hcallee : call.HasCallee := ⟨name, hname, hkind⟩
      exact (hf name.text).congr (fun _ => Iff.rfl) (by simp [hcallee])
    · rename_i hkind
      exact .misshapen (by simp [Node.HasCallee, hname, hkind]) hin

theorem settles_callOf :
    Settles sub n ((n.children.drop 1).flatMap (Node.argument false)) (Unless n.IsCall) (callOf sub n) :=
  settles_callee (fun name => (settles_arguments false n name fun _ harg =>
    (Node.within_child (List.mem_of_mem_drop harg)).mem).map Expr.call) n.mem_preorder_self

theorem settles_bare :
    Settles sub n [] (Unless n.HasCallee) (callee n >>= fun name => .ok (Expr.bare n.span name)) := by
  have h : Settles sub n [] (Unless (n.HasCallee ∧ True)) (callee n >>= fun name => .ok (Expr.bare n.span name)) :=
    settles_callee (fun name => .pure (Expr.bare n.span name) trivial) n.mem_preorder_self
  rwa [and_true] at h

/-- What bars a stage of a pipe. -/
def StageBars (stage : Node) : Option Code → Prop
  | some .unknownNode =>
    stage.kind = .functionCall ∧ stage.children ≠ [] ∧ ¬ stage.IsCall ∨
      stage.kind = .callOrIdentifier ∧ ¬ stage.HasCallee
  | some .badPipe => stage.kind ≠ .functionCall ∧ stage.kind ≠ .callOrIdentifier
  | none => stage.kind = .functionCall ∧ stage.children = []
  | _ => False

theorem settles_stage {stage : Node} (hstage : stage ∈ n.children) :
    Settles sub n stage.stageParts (StageBars stage) (OfTree.stage sub n stage) := by
  have hwithin := Node.within_child hstage
  rw [OfTree.stage, Node.stageParts]
  cases hkind : stage.kind with
  | functionCall =>
    dsimp only
    rw [if_pos rfl]
    cases hchildren : stage.children with
    | nil => exact .refuse ⟨hkind, hchildren⟩ nofun
    | cons first rest =>
      have hin : ∀ arg ∈ rest, arg ∈ n.preorder := fun arg harg =>
        hwithin.nodes arg (Node.within_child (by simp [hchildren, harg])).mem
      have hcall : Settles sub n (rest.flatMap (Node.argument true))
          (Unless (stage.HasCallee ∧ ∀ arg ∈ rest, arg.IsArgument))
          (callee stage >>= fun name => arguments sub n true stage name rest) :=
        settles_callee (fun name => settles_arguments true stage name hin) hwithin.mem
      refine hcall.congr (fun _ => Iff.rfl) fun code => ?_
      rcases code with _ | code
      · simp [StageBars, Unless, hchildren]
      · cases code <;> simp [StageBars, Unless, hkind, hchildren, Node.IsCall]
  | callOrIdentifier =>
    have hcall : Settles sub n [] (Unless (stage.HasCallee ∧ ∀ arg ∈ ([] : List Node), arg.IsArgument))
        (callee stage >>= fun name => arguments sub n true stage name []) :=
      settles_callee (fun name => settles_arguments true stage name (List.forall_mem_nil _)) hwithin.mem
    refine hcall.congr (by simp) fun code => ?_
    rcases code with _ | code
    · simp [StageBars, Unless, hkind]
    · cases code <;> simp [StageBars, Unless, hkind]
  | _ => exact .refuse ⟨by simp [hkind], by simp [hkind]⟩ (.fault hwithin.mem)

theorem settles_pipeline :
    Settles sub n (n.stages.take 1 ++ (n.stages.drop 1).flatMap Node.stageParts)
      (fun code => Unless (2 ≤ n.stages.length) code ∨ ∃ stage ∈ n.stages.drop 1, StageBars stage code)
      (pipeline sub n) := by
  have hin : ∀ stage ∈ n.stages, stage ∈ n.children := fun stage hstage => List.mem_of_mem_filter hstage
  have hfilter : n.children.filter (·.kind != .operator) = n.stages := rfl
  rw [pipeline, hfilter]
  rcases hstages : n.stages with _ | ⟨first, _ | ⟨second, rest⟩⟩
  · exact (Settles.misshapen (c := False) id n.mem_preorder_self).congr (fun _ => Iff.rfl) (by simp)
  · exact (Settles.misshapen (c := False) id n.mem_preorder_self).congr (fun _ => Iff.rfl) (by simp)
  · rw [hstages] at hin
    have hrest : Settles sub n ((second :: rest).flatMap Node.stageParts)
        (fun code => ∃ stage ∈ second :: rest, StageBars stage code) ((second :: rest).mapM (OfTree.stage sub n)) :=
      .mapM fun stage hstage => settles_stage (hin stage (List.mem_cons_of_mem _ hstage))
    exact ((Settles.part first).bind fun value _ => hrest.map (Expr.pipe n.span value)).congr (by simp)
      (by simp [unless_true])

/-! ## Nodes -/

/-- Apart from numbers, regular expressions and pipes, a node is barred only by its shape. -/
theorem bars_iff {code : Option Code} (hnumber : n.kind ≠ .number) (hregex : n.kind ≠ .regex)
    (hpipe : n.kind ≠ .pipeExpr) : n.Bars code ↔ Unless n.Known code := by
  rcases code with _ | code
  · simp [Node.Bars, Unless, hpipe]
  · cases code <;> simp [Node.Bars, Unless, hnumber, hregex, hpipe]

/-- A pipe with an empty call in it has no known shape either, although that is not what is reported. -/
theorem bars_pipe (hkind : n.kind = .pipeExpr) :
    (∀ code, (Unless (2 ≤ n.stages.length) code ∨ ∃ stage ∈ n.stages.drop 1, StageBars stage code) → n.Bars code) ∧
      ∀ code, n.Bars code →
        ∃ code', Unless (2 ≤ n.stages.length) code' ∨ ∃ stage ∈ n.stages.drop 1, StageBars stage code' := by
  have hknown : n.Known ↔ 2 ≤ n.stages.length ∧ ∀ stage ∈ n.stages.drop 1,
      (stage.kind = .functionCall → stage.IsCall) ∧ (stage.kind = .callOrIdentifier → stage.HasCallee) := by
    rw [Node.Known, hkind]
  constructor
  · rintro code (⟨rfl, hfew⟩ | ⟨stage, hstage, hbars⟩)
    · exact fun h => hfew (hknown.mp h).1
    · match code, hbars with
      | some .unknownNode, .inl ⟨hcall, _, hnone⟩ => exact fun h => hnone (((hknown.mp h).2 stage hstage).1 hcall)
      | some .unknownNode, .inr ⟨hname, hnone⟩ => exact fun h => hnone (((hknown.mp h).2 stage hstage).2 hname)
      | some .badPipe, hbars => exact ⟨hkind, stage, hstage, hbars⟩
      | none, hbars => exact ⟨hkind, stage, hstage, hbars⟩
  · intro code hbars
    by_contra hfree
    push Not at hfree
    have hstage (stage : Node) (hstage : stage ∈ n.stages.drop 1) (code : Option Code) : ¬ StageBars stage code :=
      (hfree code).2 stage hstage
    have hall : n.Known := by
      have hmany : 2 ≤ n.stages.length := by_contra fun hfew => (hfree _).1 ⟨rfl, hfew⟩
      refine hknown.mpr ⟨hmany, fun stage hmem => ⟨fun hcall => ?_, fun hname => ?_⟩⟩
      · by_contra hnone
        -- An empty call is barred in its own way, any other call by its shape.
        by_cases hempty : stage.children = []
        · exact hstage stage hmem none ⟨hcall, hempty⟩
        · exact hstage stage hmem (some .unknownNode) (.inl ⟨hcall, hempty, hnone⟩)
      · by_contra hnone
        exact hstage stage hmem (some .unknownNode) (.inr ⟨hname, hnone⟩)
    match code, hbars with
    | some .unknownNode, hbars => exact hbars hall
    | some .badPipe, ⟨_, stage, hmem, hbars⟩ => exact hstage stage hmem (some .badPipe) hbars
    | some .badNumber, ⟨hnumber, _⟩ => cases hkind.symm.trans hnumber
    | some .badRegex, ⟨hregex, _⟩ => cases hkind.symm.trans hregex
    | none, ⟨_, stage, hmem, hbars⟩ => exact hstage stage hmem none hbars

theorem settles_ofParts : Settles sub n n.parts n.Bars (ofParts sub n) := by
  have hknown {r : Result Expr} (hnumber : n.kind ≠ .number) (hregex : n.kind ≠ .regex) (hpipe : n.kind ≠ .pipeExpr)
      (h : Settles sub n n.parts (Unless n.Known) r) : Settles sub n n.parts n.Bars r :=
    h.congr (fun _ => Iff.rfl) fun code => bars_iff hnumber hregex hpipe
  rw [ofParts]
  cases hkind : n.kind
  case number =>
    have hparts : n.parts = [] := by rw [Node.parts, hkind]
    refine settles_number.congr (by simp [hparts]) fun code => ?_
    rcases code with _ | code
    · simp [Node.Bars, hkind]
    · cases code <;> simp [Node.Bars, hkind, Node.Known]
  case regex =>
    have hparts : n.parts = [] := by rw [Node.parts, hkind]
    refine settles_regex.congr (by simp [hparts]) fun code => ?_
    rcases code with _ | code
    · simp [Node.Bars, Unless, hkind]
    · cases code <;> simp [Node.Bars, Unless, hkind, Node.Known]
  case pipeExpr =>
    have hparts : n.parts = n.stages.take 1 ++ (n.stages.drop 1).flatMap Node.stageParts := by rw [Node.parts, hkind]
    obtain ⟨hbars, hsome⟩ := bars_pipe hkind
    exact settles_pipeline.imp (by simp [hparts]) hbars hsome
  all_goals
    refine hknown (by simp [hkind]) (by simp [hkind]) (by simp [hkind]) ?_
    rw [Node.parts, Node.Known, hkind]
    dsimp only
  case boolean | identifier => exact .pure _ trivial
  case string | word => exact settles_fragments
  case dotGet => exact settles_dotGet
  case binOp => exact settles_binOp
  case conditionalOp => exact settles_conditionalOp
  case assign => exact settles_assignment
  case parenExpr => exact settles_paren
  case functionDef => exact settles_functionOf
  case functionCall => exact settles_callOf
  case callOrIdentifier => exact settles_bare
  case ifExpr => exact settles_conditional
  case thenBlock => exact (settles_mapM_sub n.children).map _
  all_goals exact .misshapen id n.mem_preorder_self

end

/-! ## Whole trees -/

theorem mem_of_argument {isStage : Bool} {arg p : Node} (h : p ∈ arg.argument isStage) : p ∈ arg.children := by
  have hvalue := Option.mem_toList.mp (List.mem_of_mem_filter h)
  rw [argValue?] at hvalue
  split at hvalue <;> exact Node.mem_of_child? hvalue

theorem within_of_arguments {isStage : Bool} {n p : Node}
    (h : p ∈ (n.children.drop 1).flatMap (Node.argument isStage)) : p.Within n := by
  obtain ⟨arg, harg, hp⟩ := List.mem_flatMap.mp h
  exact (Node.within_child (mem_of_argument hp)).trans (Node.within_child (List.mem_of_mem_drop harg))

theorem within_of_operands {n p : Node} (h : p ∈ n.operands) : p.Within n := by
  rcases List.mem_append.mp h with h | h <;> exact Node.within_child (Node.mem_of_child? (Option.mem_toList.mp h))

/-- The block of the last alternative is that of one of them. -/
theorem within_of_otherwise {alternatives : List Node} {block : Option Node} {p : Node}
    (h : Node.otherwise alternatives block = some p) : block = some p ∨ ∃ part ∈ alternatives, p.Within part := by
  induction alternatives generalizing block with
  | nil => exact .inl h
  | cons part rest ih =>
    rw [Node.otherwise, List.foldl_cons] at h
    rcases ih h with hpart | ⟨m, hm, hp⟩
    · split at hpart
      · exact .inr ⟨part, List.mem_cons_self .., Node.within_child (Node.mem_of_first? hpart).1⟩
      · exact .inl hpart
    · exact .inr ⟨m, List.mem_cons_of_mem _ hm, hp⟩

theorem within_of_conditional {n p : Node}
    (h : p ∈ n.significant.take 2 ++ (n.significant.drop 2).flatMap Node.branchParts ++
      (Node.otherwise (n.significant.drop 2) none).toList) : p.Within n := by
  have hpart {part : Node} (h : part ∈ n.significant) : part.Within n := Node.within_child (Node.mem_of_significant h)
  rw [List.mem_append, List.mem_append, List.mem_flatMap, Option.mem_toList] at h
  rcases h with (h | ⟨part, hmem, hp⟩) | h
  · exact hpart (List.mem_of_mem_take h)
  · rw [Node.branchParts] at hp
    split at hp
    · exact (Node.within_child (Node.mem_of_significant hp)).trans (hpart (List.mem_of_mem_drop hmem))
    · cases hp
  · rcases within_of_otherwise h with h | ⟨part, hmem, hp⟩
    · cases h
    · exact hp.trans (hpart (List.mem_of_mem_drop hmem))

theorem within_of_stages {n p : Node} (h : p ∈ n.stages.take 1 ++ (n.stages.drop 1).flatMap Node.stageParts) :
    p.Within n := by
  have hstage {stage : Node} (h : stage ∈ n.stages) : stage.Within n := Node.within_child (List.mem_of_mem_filter h)
  rcases List.mem_append.mp h with h | h
  · exact hstage (List.mem_of_mem_take h)
  · obtain ⟨stage, hmem, hp⟩ := List.mem_flatMap.mp h
    rw [Node.stageParts] at hp
    split at hp
    · exact (within_of_arguments hp).trans (hstage (List.mem_of_mem_drop hmem))
    · cases hp

theorem within_of_parts {n p : Node} (h : p ∈ n.parts) : p.Within n := by
  rw [Node.parts] at h
  cases hkind : n.kind <;> rw [hkind] at h <;> dsimp only at h
  case string | word =>
    obtain ⟨piece, hpiece, hp⟩ := List.mem_flatMap.mp h
    rw [Node.pieceParts] at hp
    split at hp
    · exact (Node.within_child hp).trans (Node.within_child hpiece)
    · cases hp
  case binOp | conditionalOp => exact within_of_operands h
  case assign => exact Node.within_child (Node.mem_of_child? (Option.mem_toList.mp h))
  case parenExpr | thenBlock => exact Node.within_child h
  case pipeExpr => exact within_of_stages h
  case functionDef => exact Node.within_child (Node.mem_of_significant (List.mem_of_mem_drop h))
  case functionCall => exact within_of_arguments h
  case ifExpr => exact within_of_conditional h
  all_goals cases h

theorem preorder_of_involves {n m : Node} (h : n.Involves m) : ∀ x ∈ m.preorder, x ∈ n.preorder := by
  induction h with
  | refl => exact fun _ hx => hx
  | tail _ hpart ih => exact fun x hx => ih x ((within_of_parts hpart).nodes x hx)

/-- A node is read if nothing that it involves is barred, and else what stands in the way bars something. -/
theorem settled_ofNodeWithin {fuel : Nat} {n : Node} (hfuel : n.height ≤ fuel) :
    (∀ e, ofNodeWithin fuel n = .ok e → n.Free) ∧
      ∀ o, ofNodeWithin fuel n = .error o → ∃ m, n.Involves m ∧ m.Bars o.code? ∧ o.LiesIn m := by
  induction fuel generalizing n with
  | zero =>
    rw [Node.height_eq] at hfuel
    cases hfuel
  | succ fuel ih =>
    -- Parts are lower than the node, so that the fuel that is left covers them.
    have hlower {p : Node} (hp : p ∈ n.parts) : p.height ≤ fuel :=
      Nat.le_of_lt_succ (Nat.lt_of_lt_of_le (within_of_parts hp).lower hfuel)
    have hsettles : Settles (ofNodeWithin fuel) n n.parts n.Bars (ofNodeWithin (fuel + 1) n) := settles_ofParts
    constructor
    · intro e he m hm
      obtain ⟨hfree, hread⟩ := hsettles.ok e he
      rcases Relation.ReflTransGen.cases_head hm with rfl | ⟨p, hp, hm⟩
      · exact hfree
      · obtain ⟨e', he'⟩ := hread p hp
        exact (ih (hlower hp)).1 e' he' m hm
    · intro o ho
      rcases hsettles.error o ho with ⟨hbars, hin⟩ | ⟨p, hp, hpo⟩
      · exact ⟨n, .refl, hbars, hin⟩
      · obtain ⟨m, hm, hbars, hin⟩ := (ih (hlower hp)).2 o hpo
        exact ⟨m, .head hp hm, hbars, hin⟩

end OfTree
end Bareword
