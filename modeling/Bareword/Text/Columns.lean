import Bareword.Text.Cluster
import Bareword.Text.Wide

/-! # Columns

How many columns of a terminal a text takes. Escape sequences that switch colours take none.

* `Text.plain`: a text without colour sequences.
* `Text.columns`: the number of columns of a text.
-/

namespace Bareword.Text
set_option autoImplicit false
-- Sums are those of the core library, whatever instances are imported later.
attribute [local instance (high)] Zero.ofOfNat0

/-- What follows a colour sequence at the front of a text: an escape, a bracket, digits and
semicolons, and the letter `m`. -/
def afterColor? : Text → Option Text
  | e :: b :: rest =>
    if e = 0x1B ∧ b = byte '[' then
      match rest.dropWhile fun c => isDigit c || c == byte ';' with
      | m :: rest' => if m = byte 'm' then some rest' else none
      | [] => none
    else none
  | _ => none

theorem length_le_of_afterColor? {t rest : Text} (h : afterColor? t = some rest) :
    rest.length + 1 ≤ t.length := by
  unfold afterColor? at h
  split at h
  · rename_i e b tail
    split at h
    · split at h
      · rename_i m rest' hd
        split at h
        · cases h
          have hle := (List.dropWhile_suffix (l := tail) (fun c => isDigit c || c == byte ';')).length_le
          rw [hd] at hle
          simp only [List.length_cons] at hle ⊢
          omega
        · cases h
      · cases h
    · cases h
  · cases h

/-- A text without its colour sequences. -/
def plain (t : Text) : Text :=
  match t with
  | [] => []
  | b :: rest =>
    match h : afterColor? (b :: rest) with
    | some rest' =>
      have := length_le_of_afterColor? h
      plain rest'
    | none => b :: plain rest
termination_by t.length
decreasing_by
  all_goals
    simp only [List.length_cons] at *
    omega

/-- The columns of a cluster: those of its first code point that takes any. -/
def clusterColumns (cluster : List Nat) : Nat :=
  ((cluster.map codeColumns).find? (0 < ·)).getD 0

/-- The number of columns that a text takes. -/
def columns (t : Text) : Nat := ((clusters t.plain).map clusterColumns).sum

end Bareword.Text
