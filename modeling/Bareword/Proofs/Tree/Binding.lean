import Bareword.Proofs.Tree.Memory
import Bareword.Proofs.Tree.Resolution

/-! # Static scope

Which names are bound at a node can be told from the tree alone: parameters in the body of their function,
and targets of assignments from where these end, in the function that they stand in and those in it. A
property access has a base that is bound, and a word never starts with a bound name and a dot.

* `Node.at?`: the node that a path leads to.
* `Bound`: a name is bound at a node, by the shape of the tree and its offsets.
* `Node.Sees`: the same without offsets, by the walk to the node.
* `Splits.shows_iff`: the names that are bound where a walk meets a node.
* `Splits.sees_iff_bound`: assignments end in the order of the walk.
* `parse_resolves`: property accesses and words of a parse.
-/

namespace Bareword.Tree
set_option autoImplicit false
open Scope (Sorted)

/-! ## Paths -/

namespace Node

/-- The node that a path of child indices leads to. -/
def at? : Node → List Nat → Option Node
  | n, [] => some n
  | n, k :: path =>
    match n.children[k]? with
    | none => none
    | some c => c.at? path

theorem at?_cons {n m : Node} {k : Nat} {path : List Nat} :
    n.at? (k :: path) = some m ↔ ∃ c, n.children[k]? = some c ∧ c.at? path = some m := by
  rw [at?]
  cases n.children[k]? <;> simp

/-- An assignment below a node binds a name there, and not in a function below it. -/
def Exports (n : Node) (b : Text) : Prop :=
  ∃ path a, n.at? path = some a ∧ a.kind = .assign ∧ b ∈ a.targets ∧
    ∀ outer f, outer <+: path → n.at? outer = some f → f.kind ≠ .functionDef

theorem exports_iff (n : Node) (b : Text) :
    n.Exports b ↔ n.kind ≠ .functionDef ∧ ((∃ c ∈ n.children, c.Exports b) ∨ n.kind = .assign ∧ b ∈ n.targets) := by
  constructor
  · rintro ⟨path, a, ha, hkind, hb, hscope⟩
    refine ⟨hscope [] n (List.nil_prefix) rfl, ?_⟩
    cases path with
    | nil =>
      cases ha
      exact .inr ⟨hkind, hb⟩
    | cons k path =>
      obtain ⟨c, hc, ha⟩ := at?_cons.mp ha
      refine .inl ⟨c, List.mem_of_getElem? hc, path, a, ha, hkind, hb, fun outer f houter hf => ?_⟩
      exact hscope (k :: outer) f (List.cons_prefix_cons.mpr ⟨rfl, houter⟩) (at?_cons.mpr ⟨c, hc, hf⟩)
  · rintro ⟨hn, ⟨c, hc, path, a, ha, hkind, hb, hscope⟩ | ⟨hkind, hb⟩⟩
    · obtain ⟨k, hk⟩ := List.mem_iff_getElem?.mp hc
      refine ⟨k :: path, a, at?_cons.mpr ⟨c, hk, ha⟩, hkind, hb, fun outer f houter hf => ?_⟩
      cases outer with
      | nil =>
        cases hf
        exact hn
      | cons j outer =>
        obtain ⟨rfl, hrest⟩ := List.cons_prefix_cons.mp houter
        obtain ⟨d, hd, hf⟩ := at?_cons.mp hf
        cases Option.some.inj (hk.symm.trans hd)
        exact hscope outer f hrest hf
    · refine ⟨[], n, rfl, hkind, hb, fun outer f houter hf => ?_⟩
      cases List.prefix_nil.mp houter
      cases hf
      exact hn

/-- A name is bound where a path leads, by what stands around and before. -/
def Sees : Node → List Nat → Text → Prop
  | _, [], _ => False
  | n, k :: path, b => n.kind = .functionDef ∧ b ∈ n.parameters ∨ (∃ c ∈ n.children.take k, c.Exports b) ∨
      ∃ c, n.children[k]? = some c ∧ c.Sees path b

end Node

/-- A name is bound where a path leads, if the node there has the given start: it is a parameter of a function
that has the node in its body, or the target of an assignment that ends before the node and is in no function
that the node is not in. -/
inductive Bound (root : Node) (path : List Nat) (start : Int) (b : Text) : Prop where
  | parameter {outer inner : List Nat} {k : Nat} {f : Node} (hpath : path = outer ++ k :: inner)
      (hf : root.at? outer = some f) (hkind : f.kind = .functionDef) (hbody : 3 ≤ k) (hb : b ∈ f.parameters) :
      Bound root path start b
  | assigned {other : List Nat} {a : Node} (ha : root.at? other = some a) (hkind : a.kind = .assign)
      (hb : b ∈ a.targets) (hstop : a.span.stop ≤ start)
      (hscope : ∀ outer f, outer <+: other → root.at? outer = some f → f.kind = .functionDef → outer <+: path) :
      Bound root path start b

/-! ## Names that places add -/

/-- Lists of names that can be looked up. -/
structure Tidy (bs : List (List Text)) : Prop where
  ne_nil : bs ≠ []
  sorted : ∀ names ∈ bs, Sorted names

theorem Tidy.shows_iff {bs : List (List Text)} (h : Tidy bs) (b : Text) :
    shows bs b = true ↔ ∃ names ∈ bs, b ∈ names := by
  rw [shows, List.any_eq_true]
  exact exists_congr fun names => and_congr_right fun hnames => Scope.holds_iff (h.sorted names hnames) b

/-- Where a function starts, its parameters are shown in addition. -/
theorem Tidy.opening {bs : List (List Text)} (h : Tidy bs) (n : Node) :
    Tidy (Mark.applyAll bs n.opening) ∧ ∀ b, shows (Mark.applyAll bs n.opening) b = true ↔
      shows bs b = true ∨ n.kind = .functionDef ∧ b ∈ n.parameters := by
  rw [Node.opening]
  cases hk : n.kind with
  | functionDef =>
    have htidy : Tidy (n.parameters.foldl Scope.bind [] :: bs) :=
      ⟨List.cons_ne_nil _ _, List.forall_mem_cons.mpr ⟨Sorted.nil.foldl_bind _, h.sorted⟩⟩
    refine ⟨htidy, fun b => (htidy.shows_iff b).trans ?_⟩
    rw [h.shows_iff]
    simp [Scope.mem_foldl_bind, or_comm]
  | _ => exact ⟨h, fun b => by simp [Mark.applyAll, Mark.apply]⟩

/-- Some places add names to the innermost list. -/
def Adds (ms : List Mark) (names : Text → Prop) : Prop :=
  ∀ top rest, Sorted top → ∃ top', Mark.applyAll (top :: rest) ms = top' :: rest ∧ Sorted top' ∧
    ∀ b, b ∈ top' ↔ b ∈ top ∨ names b

namespace Adds
variable {ms ms' : List Mark} {names names' : Text → Prop}

theorem congr (h : Adds ms names) (hiff : ∀ b, names b ↔ names' b) : Adds ms names' := by
  rwa [← funext fun b => propext (hiff b)]

theorem nil : Adds [] fun _ => False := fun top _ htop => ⟨top, rfl, htop, fun _ => (or_iff_left id).symm⟩

theorem append (h : Adds ms names) (h' : Adds ms' names') : Adds (ms ++ ms') fun b => names b ∨ names' b := by
  intro top rest htop
  obtain ⟨mid, happly, hmid, hmem⟩ := h top rest htop
  obtain ⟨top', happly', htop', hmem'⟩ := h' mid rest hmid
  refine ⟨top', ?_, htop', fun b => ?_⟩
  · rw [Mark.applyAll_append, happly, happly']
  · rw [hmem', hmem, or_assoc]

theorem bind (a : Node) : Adds [.bind a] (· ∈ a.targets) := fun top _ htop =>
  ⟨a.targets.foldl Scope.bind top, rfl, htop.foldl_bind _, fun b => Scope.mem_foldl_bind _ _ b⟩

theorem use (n : Node) : Adds [.use n] fun _ => False := fun top _ htop =>
  ⟨top, rfl, htop, fun _ => (or_iff_left id).symm⟩

/-- What is bound in a function is not bound behind it. -/
theorem within (h : Adds ms names) (f : Node) : Adds (.enter f :: (ms ++ [.leave])) fun _ => False := by
  intro top rest htop
  obtain ⟨inner, happly, -, -⟩ := h (f.parameters.foldl Scope.bind []) (top :: rest) (Sorted.nil.foldl_bind _)
  refine ⟨top, ?_, htop, fun _ => (or_iff_left id).symm⟩
  have hscope := Mark.applyAll_append (f.parameters.foldl Scope.bind [] :: top :: rest) ms [.leave]
  rw [happly] at hscope
  exact hscope

theorem flatMap {cs : List Node} (h : ∀ c ∈ cs, Adds c.marks c.Exports) :
    Adds (cs.flatMap Node.marks) fun b => ∃ c ∈ cs, c.Exports b := by
  induction cs with
  | nil => exact nil.congr fun b => by simp
  | cons c cs ih =>
    obtain ⟨hc, hcs⟩ := List.forall_mem_cons.mp h
    exact (hc.append (ih hcs)).congr fun b => by simp

/-- Lists of names that can be looked up show what they showed and what is added. -/
theorem tidy (h : Adds ms names) {bs : List (List Text)} (hbs : Tidy bs) :
    Tidy (Mark.applyAll bs ms) ∧ ∀ b, shows (Mark.applyAll bs ms) b = true ↔ shows bs b = true ∨ names b := by
  obtain ⟨top, rest, rfl⟩ := List.exists_cons_of_ne_nil hbs.ne_nil
  obtain ⟨htop, hrest⟩ := List.forall_mem_cons.mp hbs.sorted
  obtain ⟨top', happly, htop', hmem⟩ := h top rest htop
  have htidy : Tidy (top' :: rest) := ⟨List.cons_ne_nil _ _, List.forall_mem_cons.mpr ⟨htop', hrest⟩⟩
  rw [happly]
  refine ⟨htidy, fun b => ?_⟩
  rw [htidy.shows_iff, hbs.shows_iff]
  simp only [List.mem_cons, exists_eq_or_imp, hmem]
  exact or_right_comm

end Adds

/-- A walk over a tree adds the names that are bound behind it. -/
theorem Node.adds_marks (n : Node) : Adds n.marks n.Exports := by
  have hinner : Adds n.inner fun b => ∃ c ∈ n.children, c.Exports b := .flatMap fun c hc => adds_marks c
  rw [marks_eq, opening, closing]
  cases hk : n.kind with
  | functionDef => exact (hinner.within n).congr fun b => by simp [n.exports_iff, hk]
  | assign => exact (hinner.append (.bind n)).congr fun b => by simp [n.exports_iff, hk]
  | dotGet | word => exact ((Adds.use n).append (hinner.append .nil)).congr fun b => by simp [n.exports_iff, hk]
  | _ => exact (Adds.nil.append (hinner.append .nil)).congr fun b => by simp [n.exports_iff, hk]
termination_by n.height
decreasing_by exact Node.height_lt hc

/-! ## Walks to a node -/

/-- A path cuts the walk over a tree in two, before the node that it leads to. -/
inductive Splits : Node → List Nat → List Mark → Node → List Mark → Prop where
  | here (n : Node) : Splits n [] [] n n.marks
  | child {n c m : Node} {k : Nat} {path : List Nat} {before rest : List Mark} (hc : n.children[k]? = some c)
      (h : Splits c path before m rest) :
      Splits n (k :: path) (n.opening ++ ((n.children.take k).flatMap Node.marks ++ before)) m
        (rest ++ ((n.children.drop (k + 1)).flatMap Node.marks ++ n.closing))

section
variable {n m a : Node} {path other : List Nat} {before rest : List Mark}

theorem splits_of_at? (h : n.at? path = some m) : ∃ before rest, Splits n path before m rest := by
  induction path generalizing n with
  | nil =>
    obtain rfl := Option.some.inj h
    exact ⟨_, _, .here _⟩
  | cons k path ih =>
    obtain ⟨c, hc, h⟩ := Node.at?_cons.mp h
    obtain ⟨before, rest, h⟩ := ih h
    exact ⟨_, _, .child hc h⟩

theorem Node.inner_eq {n c : Node} {k : Nat} (hc : n.children[k]? = some c) :
    n.inner = (n.children.take k).flatMap Node.marks ++ (c.marks ++ (n.children.drop (k + 1)).flatMap Node.marks) := by
  obtain ⟨hk, rfl⟩ := List.getElem?_eq_some_iff.mp hc
  rw [Node.inner, ← List.flatMap_cons, ← List.flatMap_append, ← List.drop_eq_getElem_cons hk, List.take_append_drop]

theorem Splits.marks_eq (h : Splits n path before m rest) : n.marks = before ++ rest := by
  induction h with
  | here => rfl
  | child hc _ ih =>
    rw [Node.marks_eq, Node.inner_eq hc, ih]
    simp only [List.append_assoc]

/-- The walk over a node is a part of the walk over the tree. -/
theorem Splits.marks_prefix (h : Splits n path before m rest) : m.marks <+: rest := by
  induction h with
  | here => exact List.prefix_refl _
  | child _ _ ih => exact ih.trans (List.prefix_append _ _)

theorem Splits.mem_marks (h : Splits n path before m rest) {mark : Mark} (hmark : mark ∈ m.marks) :
    mark ∈ n.marks := by
  rw [h.marks_eq]
  exact List.mem_append_right _ (h.marks_prefix.subset hmark)

/-- The names that are bound where a walk meets a node are those that the node sees. -/
theorem Splits.shows_iff (h : Splits n path before m rest) {bs : List (List Text)} (hbs : Tidy bs) :
    Tidy (Mark.applyAll bs before) ∧
      ∀ b, shows (Mark.applyAll bs before) b = true ↔ shows bs b = true ∨ n.Sees path b := by
  induction h generalizing bs with
  | here => exact ⟨hbs, fun b => (or_iff_left id).symm⟩
  | @child n c m k path before rest hc h ih =>
    obtain ⟨hopened, hparameters⟩ := hbs.opening n
    obtain ⟨hearlier, hexports⟩ := (Adds.flatMap fun d (_ : d ∈ n.children.take k) => d.adds_marks).tidy hopened
    obtain ⟨htidy, hsees⟩ := ih hearlier
    rw [Mark.applyAll_append, Mark.applyAll_append]
    refine ⟨htidy, fun b => ?_⟩
    rw [hsees, hexports, hparameters, Node.Sees, hc]
    simp [or_assoc]

theorem bind_mem_marks (hkind : a.kind = .assign) : .bind a ∈ a.marks := by
  rw [Node.marks_eq, Node.closing, hkind]
  simp

/-- What is assigned before a node is seen there, unless the assignment is in a function that the node is not
in. -/
theorem Splits.sees_or_mem (h : Splits n path before m rest) {b : Text} (ha : n.at? other = some a)
    (hkind : a.kind = .assign) (hb : b ∈ a.targets)
    (hscope : ∀ outer f, outer <+: other → n.at? outer = some f → f.kind = .functionDef → outer <+: path) :
    n.Sees path b ∨ .bind a ∈ rest := by
  induction h generalizing other with
  | here n =>
    obtain ⟨before, rest, h⟩ := splits_of_at? ha
    exact .inr (h.mem_marks (bind_mem_marks hkind))
  | @child n c m k path before rest hc h ih =>
    simp only [Node.Sees, List.mem_append]
    cases other with
    | nil =>
      obtain rfl := Option.some.inj ha
      refine .inr (.inr (.inr ?_))
      rw [Node.closing, hkind]
      exact List.mem_singleton_self _
    | cons j other =>
      obtain ⟨d, hd, ha⟩ := Node.at?_cons.mp ha
      -- The paths part here, or they go on together.
      rcases Nat.lt_trichotomy j k with hlt | rfl | hgt
      · refine .inl (.inr (.inl ⟨d, ?_, other, a, ha, hkind, hb, fun outer f houter hf hfunction => ?_⟩))
        · exact List.mem_of_getElem? (i := j) (by rwa [List.getElem?_take_of_lt hlt])
        · have hprefix := hscope (j :: outer) f (List.cons_prefix_cons.mpr ⟨rfl, houter⟩)
            (Node.at?_cons.mpr ⟨d, hd, hf⟩) hfunction
          exact Nat.ne_of_lt hlt (List.cons_prefix_cons.mp hprefix).1
      · obtain rfl := Option.some.inj (hc.symm.trans hd)
        rcases ih ha fun outer f houter hf hfunction => (List.cons_prefix_cons.mp (hscope (j :: outer) f
            (List.cons_prefix_cons.mpr ⟨rfl, houter⟩) (Node.at?_cons.mpr ⟨c, hd, hf⟩) hfunction)).2 with hsees | hmem
        · exact .inl (.inr (.inr ⟨c, hc, hsees⟩))
        · exact .inr (.inl hmem)
      · obtain ⟨before', rest', h'⟩ := splits_of_at? ha
        have hlater : d ∈ n.children.drop (k + 1) := by
          refine List.mem_of_getElem? (i := j - (k + 1)) ?_
          rwa [List.getElem?_drop, Nat.add_sub_cancel' hgt]
        exact .inr (.inr (.inl (List.mem_flatMap.mpr ⟨d, hlater, h'.mem_marks (bind_mem_marks hkind)⟩)))

/-- What a node sees is a parameter around it, or it was assigned before. -/
theorem Splits.of_sees (h : Splits n path before m rest) {b : Text} (hsees : n.Sees path b) :
    (∃ outer k inner f, path = outer ++ k :: inner ∧ n.at? outer = some f ∧ f.kind = .functionDef ∧
      b ∈ f.parameters) ∨
    ∃ other a, n.at? other = some a ∧ a.kind = .assign ∧ b ∈ a.targets ∧ .bind a ∈ before ∧
      ∀ outer f, outer <+: other → n.at? outer = some f → f.kind = .functionDef → outer <+: path := by
  induction h with
  | here => exact hsees.elim
  | @child n c m k path before rest hc h ih =>
    rcases hsees with ⟨hkind, hb⟩ | ⟨d, hd, other, a, ha, hkind, hb, hscope⟩ | ⟨d, hd, hsees⟩
    · exact .inl ⟨[], k, path, n, rfl, rfl, hkind, hb⟩
    · obtain ⟨j, hj⟩ := List.mem_iff_getElem?.mp hd
      rw [List.getElem?_take, Option.ite_none_right_eq_some] at hj
      obtain ⟨before', rest', h'⟩ := splits_of_at? ha
      refine .inr ⟨j :: other, a, Node.at?_cons.mpr ⟨d, hj.2, ha⟩, hkind, hb, ?_, fun outer f houter hf hfunction => ?_⟩
      · refine List.mem_append_right _ (List.mem_append_left _ (List.mem_flatMap.mpr ⟨d, hd, ?_⟩))
        exact h'.mem_marks (bind_mem_marks hkind)
      · cases outer with
        | nil => exact List.nil_prefix
        | cons i outer =>
          obtain ⟨rfl, hrest⟩ := List.cons_prefix_cons.mp houter
          obtain ⟨e, he, hf⟩ := Node.at?_cons.mp hf
          obtain rfl := Option.some.inj (hj.2.symm.trans he)
          exact absurd hfunction (hscope outer f hrest hf)
    · obtain rfl := Option.some.inj (hc.symm.trans hd)
      rcases ih hsees with ⟨outer, i, inner, f, rfl, hf, hkind, hb⟩ | ⟨other, a, ha, hkind, hb, hmem, hscope⟩
      · exact .inl ⟨k :: outer, i, inner, f, rfl, Node.at?_cons.mpr ⟨c, hc, hf⟩, hkind, hb⟩
      · refine .inr ⟨k :: other, a, Node.at?_cons.mpr ⟨c, hc, ha⟩, hkind, hb, ?_, fun outer f houter hf hfunction => ?_⟩
        · exact List.mem_append_right _ (List.mem_append_right _ hmem)
        · cases outer with
          | nil => exact List.nil_prefix
          | cons i outer =>
            obtain ⟨rfl, hrest⟩ := List.cons_prefix_cons.mp houter
            obtain ⟨e, he, hf⟩ := Node.at?_cons.mp hf
            obtain rfl := Option.some.inj (hc.symm.trans he)
            exact List.cons_prefix_cons.mpr ⟨rfl, hscope outer f hrest hf hfunction⟩

theorem Node.sees_parameter {outer inner : List Nat} {k : Nat} {f : Node} {b : Text} (hf : n.at? outer = some f)
    (hkind : f.kind = .functionDef) (hb : b ∈ f.parameters) : n.Sees (outer ++ k :: inner) b := by
  induction outer generalizing n with
  | nil =>
    obtain rfl := Option.some.inj hf
    exact .inl ⟨hkind, hb⟩
  | cons j outer ih =>
    obtain ⟨c, hc, hf⟩ := at?_cons.mp hf
    exact .inr (.inr ⟨c, hc, ih hf⟩)

theorem Node.at?_append {outer inner : List Nat} {f : Node} (hf : n.at? outer = some f) :
    n.at? (outer ++ inner) = f.at? inner := by
  induction outer generalizing n with
  | nil => rw [Option.some.inj hf, List.nil_append]
  | cons k outer ih =>
    obtain ⟨c, hc, hf⟩ := at?_cons.mp hf
    rw [List.cons_append, at?, hc]
    exact ih hf

/-- Names are used in the bodies of functions only. -/
theorem three_le_of_use (h : n.at? path = some m) (huse : .use m ∈ m.marks)
    (hheads : ∀ f, .enter f ∈ n.marks → (f.children.take 3).flatMap Node.marks = []) {outer inner : List Nat} {k : Nat}
    {f : Node} (hpath : path = outer ++ k :: inner) (hf : n.at? outer = some f) (hkind : f.kind = .functionDef) :
    3 ≤ k := by
  by_contra hlt
  obtain ⟨before, rest, hsplits⟩ := splits_of_at? hf
  have henter : .enter f ∈ f.marks := by
    rw [Node.marks_eq, Node.opening, hkind]
    exact List.mem_cons_self
  rw [hpath, Node.at?_append hf] at h
  obtain ⟨c, hc, h⟩ := Node.at?_cons.mp h
  obtain ⟨before', rest', hsplits'⟩ := splits_of_at? h
  have hmem : .use m ∈ (f.children.take 3).flatMap Node.marks := by
    refine List.mem_flatMap.mpr ⟨c, List.mem_of_getElem? (i := k) ?_, hsplits'.mem_marks huse⟩
    rwa [List.getElem?_take_of_lt (Nat.lt_of_not_le hlt)]
  rw [hheads f (hsplits.mem_marks henter)] at hmem
  cases hmem

/-- If places stand in the source as they do in the tree, a node sees what is bound there. -/
theorem Splits.sees_iff_bound {more : List Mark} (h : Splits n path before m (.use m :: more))
    (hat : n.at? path = some m) (huse : .use m ∈ m.marks) (hordered : n.marks.Pairwise Mark.InOrder)
    (hheads : ∀ f, .enter f ∈ n.marks → (f.children.take 3).flatMap Node.marks = []) (b : Text) :
    n.Sees path b ↔ Bound n path m.span.start b := by
  rw [h.marks_eq] at hordered
  obtain ⟨-, hrest, hbefore⟩ := List.pairwise_append.mp hordered
  constructor
  · intro hsees
    rcases h.of_sees hsees with ⟨outer, k, inner, f, hpath, hf, hkind, hb⟩ | ⟨other, a, ha, hkind, hb, hmem, hscope⟩
    · exact .parameter hpath hf hkind (three_le_of_use hat huse hheads hpath hf hkind) hb
    · exact .assigned ha hkind hb (hbefore (.bind a) hmem (.use m) List.mem_cons_self) hscope
  · intro hbound
    cases hbound with
    | parameter hpath hf hkind _ hb =>
      rw [hpath]
      exact Node.sees_parameter hf hkind hb
    | @assigned other a ha hkind hb hstop hscope =>
      refine (h.sees_or_mem ha hkind hb hscope).resolve_right fun hmem => ?_
      -- An assignment behind the use ends behind it.
      have hlater : .bind a ∈ more := (List.mem_cons.mp hmem).resolve_left Mark.noConfusion
      exact Int.not_lt.mpr hstop ((List.pairwise_cons.mp hrest).1 (.bind a) hlater)

/-- A tree whose places stand in order, where names are used and bound as the walk over it says. -/
theorem resolved_of_settled {src : Text} {n m : Node} {path : List Nat} (hsettled : Settled src [[]] n.marks)
    (hordered : n.marks.Pairwise Mark.InOrder) (hat : n.at? path = some m) (hopening : m.opening = [.use m]) :
    ∃ bs, m.Resolved src bs ∧ ∀ b, shows bs b = true ↔ Bound n path m.span.start b := by
  obtain ⟨before, rest, hsplits⟩ := splits_of_at? hat
  obtain ⟨more, rfl⟩ : ∃ more, rest = .use m :: more := by
    have hprefix := hsplits.marks_prefix
    rw [Node.marks_eq, hopening] at hprefix
    obtain ⟨more, rfl⟩ := hprefix
    exact ⟨_, rfl⟩
  have huse : .use m ∈ m.marks := by
    rw [Node.marks_eq, hopening]
    exact List.mem_cons_self
  have hheads : ∀ f, .enter f ∈ n.marks → (f.children.take 3).flatMap Node.marks = [] := fun f hf =>
    (hsettled.fits hf).choose_spec
  have htidy : Tidy [[]] := ⟨List.cons_ne_nil _ _, fun names hnames => by
    rw [List.mem_singleton.mp hnames]
    exact Sorted.nil⟩
  rw [hsplits.marks_eq] at hsettled
  refine ⟨Mark.applyAll [[]] before, (settled_append.mp hsettled).2.1, fun b => ?_⟩
  rw [(hsplits.shows_iff htidy).2, ← hsplits.sees_iff_bound hat huse hordered hheads, htidy.shows_iff]
  simp

end

/-! ## Parses -/

theorem drop_of_text_eq {src b rest : Text} {span : Span} (h : span.text src = b ++ Text.byte '.' :: rest) :
    ∃ rest', src.drop span.start.toNat = b ++ Text.byte '.' :: rest' := by
  rw [Span.text, Text.slice] at h
  split at h
  · exact absurd h.symm (List.append_ne_nil_of_right_ne_nil _ (List.cons_ne_nil _ _))
  · rw [Text.extract] at h
    have hsplit := List.take_append_drop (span.stop.toNat - span.start.toNat) (src.drop span.start.toNat)
    rw [h, List.append_assoc] at hsplit
    exact ⟨_, hsplit.symm⟩

namespace Grammar
open Parsing

variable {setup : Setup} {stmts : List Node} {t : Snapshot}

theorem marks_wholeTree (setup : Setup) (stmts : List Node) (t : Snapshot) :
    (wholeTree setup stmts t).marks = stmts.flatMap Node.marks := by
  have hunread : (unread setup t).flatMap Node.marks = [] := by
    rw [unread]
    split
    · rw [List.flatMap_singleton, marks_faultNode]
    · rfl
  rw [Node.marks_of_isPlain rfl, Node.inner, wholeTree, List.flatMap_append, hunread, List.append_nil]

/-- The names that are bound in a tree are those that the parse bound. -/
theorem Outcome.settled (h : Outcome setup True stmts t) :
    Settled setup.src [[]] (parse setup).tree.marks ∧ (parse setup).tree.marks.Pairwise Mark.InOrder := by
  have hmarked : MadeAll setup .origin stmts t := h.reads.marked
  rw [h.tree_eq, marks_wholeTree]
  exact ⟨(hmarked.marked.settles rfl).2, hmarked.marked.lies.ordered⟩

/-- Unless fingerprints of scopes collide, a property access has a base that is bound at it, and a word does
not start with a name that is bound at it and a dot. -/
theorem parse_resolves (setup : Setup)
    (hfree : (parse (setup.remembering .standard)).scope.arena.CollisionFree setup.hasher) (path : List Nat) (n : Node)
    (hn : (parse (setup.remembering .standard)).tree.at? path = some n) :
    (n.kind = .dotGet → ∃ base, n.children.head? = some base ∧ base.kind = .identifier ∧
      Bound (parse (setup.remembering .standard)).tree path n.span.start base.text) ∧
    (n.kind = .word → ∀ b rest, Token.isName b = true → n.span.text setup.src = b ++ Text.byte '.' :: rest →
      ¬ Bound (parse (setup.remembering .standard)).tree path n.span.start b) := by
  obtain ⟨stmts, t, h⟩ := parse_outcome (setup.remembering .standard) True fun _ _ => ⟨rfl, hfree⟩
  obtain ⟨hsettled, hordered⟩ := h.settled
  refine ⟨fun hkind => ?_, fun hkind b rest hb htext => ?_⟩
  · obtain ⟨bs, hresolved, hbound⟩ := resolved_of_settled hsettled hordered hn (by rw [Node.opening, hkind])
    obtain ⟨base, hbase, hidentifier, hshows⟩ := hresolved.dotGet hkind
    exact ⟨base, hbase, hidentifier, (hbound base.text).mp hshows⟩
  · obtain ⟨bs, hresolved, hbound⟩ := resolved_of_settled hsettled hordered hn (by rw [Node.opening, hkind])
    obtain ⟨rest', hdrop⟩ := drop_of_text_eq htext
    rw [← hbound b, hresolved.word hkind b rest' hb hdrop]
    exact Bool.false_ne_true

open Scope in
/-- A name that is assigned on the line before is the base of a property access. -/
theorem parse_resolves_assigned :
    let setup : Setup := { src := "x = 1\nx.a" }
    let p := parse (setup.remembering .standard)
    p.scope.arena.CollisionFree setup.hasher ∧ ∃ n, p.tree.at? [1] = some n ∧ n.kind = .dotGet ∧
      ∃ base, n.children.head? = some base ∧ base.kind = .identifier ∧ Bound p.tree [1] n.span.start base.text := by
  intro setup
  have heval : (let p := parse (setup.remembering .standard); (p.scope.arena, (p.tree.at? [1]).map (·.kind))) =
      (⟨#[⟨none, [], 3244421341483603138⟩, ⟨none, ["x"], 11999568128206417325⟩]⟩, some .dotGet) := by cbv
  obtain ⟨harena, hkind⟩ := Prod.mk.inj heval
  have hfree : (parse (setup.remembering .standard)).scope.arena.CollisionFree setup.hasher := by
    rw [harena]
    show Scope.Arena.CollisionFree Digest.fingerprint _
    decide +kernel
  obtain ⟨n, hn, hkind⟩ := Option.map_eq_some_iff.mp hkind
  exact ⟨hfree, n, hn, hkind, (parse_resolves setup hfree [1] n hn).1 hkind⟩

end Grammar
end Bareword.Tree
