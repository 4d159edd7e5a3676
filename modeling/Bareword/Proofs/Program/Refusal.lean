import Bareword.Program.OfTree
import Bareword.Proofs.Expr.Obstacles
import Bareword.Proofs.Tree.Reports

/-! # Trees that are refused

What is compiled need not be the tree of a source. A tree is refused for its root, for its error nodes, or for the
first statement that is not free.

* `Program.Barred`, `Program.Faulty`: what bars a tree, and whether its error nodes do.
* `Program.ofTree_fails_cleanly`: a tree is compiled or reported, unless it pipes a value into an empty call.
-/

namespace Bareword.Program
set_option autoImplicit false
open Bareword.Tree (Node)
open OfTree (Obstacle Result)
open Report (Code CompileFault Failure Fault Stop SyntaxFault)

/-- Parts are read one after the other up to the first that is not. -/
theorem mapM_eq_error {α β : Type} {f : α → Result β} {as : List α} {o : Obstacle} (h : as.mapM f = .error o) :
    ∃ before a after, as = before ++ a :: after ∧ (∀ b ∈ before, ∃ r, f b = .ok r) ∧ f a = .error o := by
  induction as with
  | nil => cases h
  | cons a as ih =>
    rw [List.mapM_cons] at h
    cases ha : f a with
    | error o' =>
      rw [ha] at h
      cases h
      exact ⟨[], a, as, rfl, List.forall_mem_nil _, ha⟩
    | ok r =>
      rw [ha] at h
      have hrest : as.mapM f = .error o := by
        cases hrun : as.mapM f with
        | error o' =>
          rw [hrun] at h
          cases h
          rfl
        | ok rs =>
          rw [hrun] at h
          cases h
      obtain ⟨before, b, after, rfl, hbefore, hb⟩ := ih hrest
      exact ⟨a :: before, b, after, rfl, List.forall_mem_cons.mpr ⟨⟨r, ha⟩, hbefore⟩, hb⟩

/-- What bars a tree, by the code of the report: its root, or what the first statement involves that is
not free. -/
inductive Barred : Option Node → Option Code → Prop where
  /-- There is no tree. -/
  | missing : Barred none (some .unknownNode)
  /-- The root is not that of a program. -/
  | stray {n : Node} (root : n.kind ≠ .program) : Barred (some n) (some .unknownNode)
  /-- A statement involves a node that is barred, and those before it are free. -/
  | inside {n statement m : Node} {before after : List Node} {code : Option Code} (root : n.kind = .program)
      (statements : n.children = before ++ statement :: after) (free : ∀ s ∈ before, s.Free)
      (involved : statement.Involves m) (bars : m.Bars code) : Barred (some n) code

/-- The root is that of a program, and there are error nodes in the tree. -/
def Faulty (tree : Option Node) : Prop := ∃ n, tree = some n ∧ n.kind = .program ∧ n.errors ≠ []

section
variable {n : Node}

theorem settled_ofProgram (hroot : n.kind = .program) :
    (∀ es, Expr.ofProgram n = .ok es → ∀ code, ¬ Barred (some n) code) ∧
      ∀ o, Expr.ofProgram n = .error o → Barred (some n) o.code? ∧ o.LiesIn n := by
  constructor
  · rintro es hes code (_ | ⟨hstray⟩ | ⟨_, hstatements, -, hinvolved, hbars⟩)
    · exact hstray hroot
    · obtain ⟨-, hread⟩ := (OfTree.settles_mapM_sub (n := n) n.children).ok es hes
      obtain ⟨e, he⟩ := hread _ (hstatements ▸ List.mem_append_right _ (List.mem_cons_self ..))
      exact (OfTree.settled_ofNodeWithin (Nat.le_refl _)).1 e he _ hinvolved code hbars
  · intro o ho
    obtain ⟨before, statement, after, hstatements, hbefore, hstatement⟩ := mapM_eq_error ho
    obtain ⟨m, hinvolved, hbars, hin⟩ := (OfTree.settled_ofNodeWithin (Nat.le_refl _)).2 o hstatement
    have hmem : statement ∈ n.children := hstatements ▸ List.mem_append_right _ (List.mem_cons_self ..)
    refine ⟨.inside hroot hstatements (fun s hs => ?_) hinvolved hbars, fun code span message hasCause h => ?_⟩
    · obtain ⟨e, he⟩ := hbefore s hs
      exact (OfTree.settled_ofNodeWithin (Nat.le_refl _)).1 e he
    · obtain ⟨l, hl, hspan⟩ := hin code span message hasCause h
      exact ⟨l, (Node.within_child hmem).nodes l (OfTree.preorder_of_involves hinvolved l hl), hspan⟩

theorem ofFaults_faults {fs : List Fault} {failure : Failure} (h : Failure.ofFaults fs = some failure) :
    failure.faults = fs := by
  rcases fs with _ | ⟨f, _ | ⟨g, fs⟩⟩ <;> cases h <;> rfl

/-- A tree with error nodes is reported as them. -/
theorem ofTree_of_faulty (source filename : Text) (hroot : n.kind = .program) (herrors : n.errors ≠ []) :
    ∃ failure, ofTree source filename (some n) = .error (.failed failure) ∧
      failure.faults = n.errors.map (nodeFault source filename) := by
  rw [ofTree]
  dsimp only
  rw [if_neg (not_not_intro hroot)]
  cases hfailure : Failure.ofFaults (n.errors.map (nodeFault source filename)) with
  | none => exact absurd (List.map_eq_nil_iff.mp (Tree.Grammar.ofFaults_eq_none.mp hfailure)) herrors
  | some failure => exact ⟨failure, rfl, ofFaults_faults hfailure⟩

/-- A tree without error nodes is compiled as its statements. -/
theorem ofTree_of_sound (source filename : Text) (hroot : n.kind = .program) (herrors : n.errors = []) :
    ofTree source filename (some n) =
      ((Expr.ofProgram n).map (Expr.compile source filename)).mapError (obstacleStop source filename) := by
  rw [ofTree]
  dsimp only
  rw [if_neg (not_not_intro hroot), herrors]
  cases Expr.ofProgram n <;> rfl

/-- A tree is reported as its error nodes, compiled because nothing bars it, or left at what bars it. -/
theorem ofTree_cases (source filename : Text) (tree : Option Node) :
    (Faulty tree ∧ ∃ n failure, tree = some n ∧ ofTree source filename tree = .error (.failed failure) ∧
        n.errors ≠ [] ∧ failure.faults = n.errors.map (nodeFault source filename)) ∨
      (¬ Faulty tree ∧ (∃ p, ofTree source filename tree = .ok p) ∧ ∀ code, ¬ Barred tree code) ∨
        ¬ Faulty tree ∧ ∃ o, ofTree source filename tree = .error (obstacleStop source filename o) ∧
          Barred tree o.code? ∧ ∀ n, tree = some n → o.LiesIn n := by
  rcases tree with _ | n
  · refine .inr (.inr ⟨?_, _, rfl, .missing, nofun⟩)
    rintro ⟨_, ⟨⟩, -⟩
  by_cases hroot : n.kind = .program
  · by_cases herrors : n.errors = []
    · have hsound : ¬ Faulty (some n) := by
        rintro ⟨_, ⟨⟩, -, h⟩
        exact h herrors
      obtain ⟨hok, herror⟩ := settled_ofProgram hroot
      rw [ofTree_of_sound source filename hroot herrors]
      cases hstatements : Expr.ofProgram n with
      | ok es => exact .inr (.inl ⟨hsound, ⟨_, rfl⟩, hok es hstatements⟩)
      | error o =>
        obtain ⟨hbarred, hin⟩ := herror o hstatements
        refine .inr (.inr ⟨hsound, o, rfl, hbarred, ?_⟩)
        rintro _ ⟨⟩
        exact hin
    · obtain ⟨failure, hfailed, hfaults⟩ := ofTree_of_faulty source filename hroot herrors
      exact .inl ⟨⟨n, rfl, hroot, herrors⟩, n, failure, rfl, hfailed, herrors, hfaults⟩
  · have hrefused : ofTree source filename (some n) =
        .error (obstacleStop source filename (.fault .unknownNode n.span "expected a program node" false)) := by
      rw [ofTree]
      exact if_pos hroot
    refine .inr (.inr ⟨?_, _, hrefused, .stray hroot, ?_⟩)
    · rintro ⟨_, ⟨⟩, h, -⟩
      exact hroot h
    · rintro _ ⟨⟩
      exact .fault n.mem_preorder_self

/-- A tree is either compiled or reported, except where a value is piped into an empty call. If it is a program
with error nodes, these are reported. Else it is compiled if nothing bars it, and what is reported bars it, so
that a shape that is not known is reported as such. -/
theorem ofTree_fails_cleanly (source filename : Text) (tree : Option Node) :
    ((∃ failure, ofTree source filename tree = .error (.failed failure) ∧ failure.faults ≠ [] ∧
        ∀ fault ∈ failure.faults, ∃ e : SyntaxFault, fault = .parsing e) ↔ Faulty tree) ∧
      (∀ n, tree = some n → Faulty tree → ∃ failure, ofTree source filename tree = .error (.failed failure) ∧
        failure.faults = n.errors.map (nodeFault source filename)) ∧
      ((∃ p, ofTree source filename tree = .ok p) ↔ ¬ Faulty tree ∧ ∀ code, ¬ Barred tree code) ∧
      (¬ Faulty tree → ∀ stop, ofTree source filename tree = .error stop →
        (∃ (fault : CompileFault) (code : Code), stop = .fault (.compiling fault) ∧ fault.code = code.text ∧
          Barred tree (some code) ∧ ∀ n, tree = some n → ∃ m ∈ n.preorder, m.span = fault.location.span) ∨
        stop = .breakdown ∧ Barred tree none) ∧
      (¬ Faulty tree → Barred tree (some .unknownNode) → (∀ code, Barred tree code → code = some .unknownNode) →
        ∃ fault : CompileFault, ofTree source filename tree = .error (.fault (.compiling fault)) ∧
          fault.code = Code.unknownNode.text) := by
  rcases ofTree_cases source filename tree with ⟨hfaulty, n, failure, rfl, hrun, herrors, hfaults⟩ |
    ⟨hsound, ⟨p, hrun⟩, hfree⟩ | ⟨hsound, o, hrun, hbarred, hin⟩ <;> rw [hrun]
  · have hparsing : ∀ fault ∈ failure.faults, ∃ e : SyntaxFault, fault = .parsing e := by
      intro fault hfault
      rw [hfaults] at hfault
      obtain ⟨m, -, rfl⟩ := List.mem_map.mp hfault
      exact ⟨_, rfl⟩
    refine ⟨iff_of_true ⟨failure, rfl, by simpa [hfaults] using herrors, hparsing⟩ hfaulty, ?_,
      iff_of_false nofun fun h => h.1 hfaulty, fun h => absurd hfaulty h, fun h => absurd hfaulty h⟩
    rintro _ ⟨⟩ -
    exact ⟨failure, rfl, hfaults⟩
  · exact ⟨iff_of_false nofun hsound, fun _ _ h => absurd h hsound, iff_of_true ⟨p, rfl⟩ ⟨hsound, hfree⟩, nofun,
      fun _ hunknown => absurd hunknown (hfree _)⟩
  · have hcompiled : ¬ ∃ p, .error (obstacleStop source filename o) = (.ok p : Except Stop Program) := nofun
    refine ⟨iff_of_false ?_ hsound, fun _ _ h => absurd h hsound, iff_of_false hcompiled fun h => h.2 _ hbarred, ?_, ?_⟩
    · rintro ⟨failure, hfailure, -, hparsing⟩
      cases o with
      | emptyStage => cases hfailure
      | fault code span message hasCause =>
        cases hfailure
        obtain ⟨e, he⟩ := hparsing _ (List.mem_singleton_self _)
        cases he
    · rintro - _ ⟨⟩
      cases o with
      | emptyStage => exact .inr ⟨rfl, hbarred⟩
      | fault code span message hasCause =>
        exact .inl ⟨_, code, rfl, rfl, hbarred, fun n hn => hin n hn code span message hasCause rfl⟩
    · -- What stands in the way is one of the things that bar the tree, and these are all unknown shapes.
      intro _ _ honly
      have hcode := honly _ hbarred
      cases o with
      | emptyStage => cases hcode
      | fault code span message hasCause =>
        cases hcode
        exact ⟨_, rfl, rfl⟩

-- A number is piped into a call with nothing in it.
example :
    let pipe : Node :=
      { kind := .pipeExpr, span := .zero
        children := [{ kind := .number, span := .zero, text := "1" }, { kind := .functionCall, span := .zero }] }
    ofTree [] [] (some { kind := .program, span := .zero, children := [pipe] }) = .error .breakdown := rfl

end
end Bareword.Program
