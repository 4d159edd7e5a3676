import Bareword.Script
import Bareword.Proofs.Tree.Adequacy
import Bareword.Proofs.Tree.Events

/-! # The two reports of a parse

A parse lists its faults while it makes error nodes, and it stops when the list is full. The list is that
of the first error nodes of the tree, so whoever asks the list and whoever asks the tree whether there are
faults gets one answer.

* `Outcome.faults_eq_errors`: the list of the faults and the error nodes of a tree.
* `parse_faults`: what a parse that is not called off reports.
-/

namespace Bareword.Tree.Grammar
set_option autoImplicit false
open Report (Failure Fault Stop)
open Parsing
open Node

variable {setup : Setup} {exact : Prop} {stmts : List Node} {s t : Snapshot}

theorem live_of (hcancelled : setup.cancelled = false) (hpatience : setup.patience = none) : Live setup := by
  intro n
  rw [Setup.isOff, hcancelled, hpatience]
  rfl

theorem errors_wholeTree : (wholeTree setup stmts t).errors = stmts.flatMap Node.errors ++ unread setup t := by
  have hunread : (unread setup t).flatMap Node.errors = unread setup t := by
    rw [unread]
    split
    · rw [List.flatMap_singleton, errors_faultNode]
    · rfl
  rw [errors_of_kind Kind.noConfusion, wholeTree, List.flatMap_append, hunread]

/-- What the statements of a parse are made of. -/
theorem Outcome.traced (h : Outcome setup exact stmts t) :
    ∃ es, Traced setup .origin es t ∧ stmts.flatMap Node.errors = faultsOf es :=
  h.reads.traced trivial _ rfl

theorem fair_origin : Snapshot.origin.Fair := ⟨Nat.zero_le _, by decide⟩

/-- The list of the faults is that of the first error nodes of the tree. -/
theorem Outcome.faults_eq_errors (h : Outcome setup exact stmts t) (hlive : Live setup) :
    (parse setup).faults = ((parse setup).tree.errors.take maxFaults).map (faultOf setup) := by
  obtain ⟨es, hes, herrors⟩ := h.traced
  have htally := hes.tally hlive fair_origin
  have hfaults : t.faults = ((stmts.flatMap Node.errors).take maxFaults).map (faultOf setup) := by
    rw [htally.faults_eq, herrors, List.map_take]
    rfl
  -- The rest of the source is an error node of its own only if the list was full before.
  have hfull : ((stmts.flatMap Node.errors) ++ unread setup t).take maxFaults =
      (stmts.flatMap Node.errors).take maxFaults := by
    rw [unread]
    split
    · rename_i hstopped
      have hlength := htally.fair.halted_iff.mp hstopped.1
      rw [hfaults, List.length_map, List.length_take] at hlength
      rw [List.take_append_of_le_length (by omega)]
    · rw [List.append_nil]
  rw [h.faults_eq, h.tree_eq, errors_wholeTree, hfull, hfaults]

theorem ofFaults_eq_none {fs : List Fault} : Failure.ofFaults fs = none ↔ fs = [] := by
  rcases fs with _ | ⟨f, _ | ⟨g, fs⟩⟩ <;> simp [Failure.ofFaults]

theorem take_maxFaults_eq_nil {ns : List Node} : ns.take maxFaults = [] ↔ ns = [] := by
  simp [List.take_eq_nil_iff, maxFaults]

/-- What is refused because of an error node does not compile. -/
theorem ofTree_of_errors {source filename : Text} {n : Node} (h : n.errors ≠ []) :
    ∃ e, Program.ofTree source filename (some n) = .error e := by
  rw [Program.ofTree]
  split
  · exact ⟨_, rfl⟩
  · cases hfailure : Failure.ofFaults (n.errors.map (Program.nodeFault source filename)) with
    | some failure => exact ⟨_, rfl⟩
    | none => exact absurd (List.map_eq_nil_iff.mp (ofFaults_eq_none.mp hfailure)) h

/-- A parse that is not called off reports the first error nodes of its tree, so it fails if and only if
there are some, and scripts compile if and only if their trees do. -/
theorem parse_faults (setup : Setup) (hcancelled : setup.cancelled = false) (hpatience : setup.patience = none) :
    (parse setup).faults = ((parse setup).tree.errors.take maxFaults).map (faultOf setup) ∧
      ((parse setup).failure? = none ↔ (parse setup).tree.errors = []) ∧
      ∀ script : Script, script.setup = setup →
        ((∃ e, script.compile = .error e) ↔
          ∃ e, Program.ofTree script.source script.filename (some (parse setup).tree) = .error e) := by
  obtain ⟨stmts, t, houtcome⟩ := parse_outcome setup False False.elim
  have hfaults := houtcome.faults_eq_errors (live_of hcancelled hpatience)
  have hnone : (parse setup).failure? = none ↔ (parse setup).tree.errors = [] := by
    rw [Parsed.failure?, ofFaults_eq_none, List.map_eq_nil_iff, hfaults, List.map_eq_nil_iff, take_maxFaults_eq_nil]
  refine ⟨hfaults, hnone, ?_⟩
  rintro script rfl
  rw [Script.compile, Script.parse]
  cases hfailure : (parse script.setup).failure? with
  | none => rfl
  | some failure =>
    have herrors : (parse script.setup).tree.errors ≠ [] := by
      intro hnil
      rw [hnone.mpr hnil] at hfailure
      cases hfailure
    exact ⟨fun _ => ofTree_of_errors herrors, fun _ => ⟨_, rfl⟩⟩

/-- A group that is not closed and has nothing in it, which are two errors. -/
theorem parse_faults_open_group :
    let setup : Setup := { src := "1 + (" }
    (setup.cancelled = false ∧ setup.patience = none ∧ (parse setup).tree.errors.map (·.span) = [⟨5, 5⟩, ⟨5, 5⟩]) ∧
      (parse setup).faults = ((parse setup).tree.errors.take maxFaults).map (faultOf setup) ∧
      ((parse setup).failure? = none ↔ (parse setup).tree.errors = []) ∧
      ∀ script : Script, script.setup = setup →
        ((∃ e, script.compile = .error e) ↔
          ∃ e, Program.ofTree script.source script.filename (some (parse setup).tree) = .error e) := by
  intro setup
  have herrors : (parse setup).tree.errors.map (·.span) = [⟨5, 5⟩, ⟨5, 5⟩] := by cbv
  exact ⟨⟨rfl, rfl, herrors⟩, parse_faults setup rfl rfl⟩

end Bareword.Tree.Grammar
