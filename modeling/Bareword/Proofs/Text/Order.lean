import Bareword.Search
import Bareword.Text.Basic
import Mathlib

/-! # The order of texts

Texts are ordered by their bytes, and sorted texts are searched by halves. Between a text and one of its
extensions there are only extensions of it, so those stand together among sorted texts.

* `Text.before_iff`: the comparison byte by byte is the order of lists.
* `Search.between_spec`: a binary search finds where a predicate starts to hold.
* `Text.extends_of_between`: what lies between a text and one of its extensions.
-/

namespace Bareword
set_option autoImplicit false

theorem Text.before_iff (a b : Text) : Text.before a b = true ↔ a < b := by
  induction a generalizing b with
  | nil => cases b <;> simp [before, cmp]
  | cons x a ih =>
    cases b with
    | nil => simp [before, cmp]
    | cons y b =>
      rw [List.cons_lt_cons_iff, ← ih, before, before, cmp]
      grind

theorem Text.before_eq_false_iff (a b : Text) : Text.before a b = false ↔ b ≤ a := by
  rw [Bool.eq_false_iff, ne_eq, before_iff, List.not_lt]

/-- The search ends where the predicate starts to hold, if it holds from some number on. -/
theorem Search.between_spec {p : Nat → Bool} {lo hi : Nat} (hle : lo ≤ hi)
    (hmono : ∀ i j, i ≤ j → j < hi → p i = true → p j = true) :
    between p lo hi ≤ hi ∧ (∀ i, lo ≤ i → i < between p lo hi → p i = false) ∧
      ∀ i, between p lo hi ≤ i → i < hi → p i = true := by
  fun_induction between p lo hi with
  | case1 lo hi hlt mid hp ih =>
    obtain ⟨hbound, hbelow, habove⟩ := ih (by omega) fun i j hij hj => hmono i j hij (by omega)
    refine ⟨by omega, hbelow, fun i hi hhi => ?_⟩
    by_cases hmid : i < mid
    · exact habove i hi hmid
    · exact hmono mid i (by omega) hhi hp
  | case2 lo hi hlt mid hp ih =>
    obtain ⟨hbound, hbelow, habove⟩ := ih (by omega) hmono
    refine ⟨hbound, fun i hi hhi => ?_, habove⟩
    by_cases hmid : mid < i
    · exact hbelow i hmid hhi
    · rw [Bool.eq_false_iff]
      exact fun hi' => hp (hmono i mid (by omega) (by omega) hi')
  | case3 lo hi hlt => exact ⟨hle, fun i hi hhi => by omega, fun i hi hhi => by omega⟩

/-! ## Extensions -/

theorem Text.le_of_prefix {p t : Text} (h : p <+: t) : p ≤ t := by
  obtain ⟨tail, rfl⟩ := h
  induction p with
  | nil => exact List.not_lt_nil _
  | cons x p ih =>
    rw [List.cons_append, ← List.not_lt, List.cons_lt_cons_iff]
    rintro (hlt | ⟨-, hlt⟩)
    · exact UInt8.lt_irrefl x hlt
    · exact List.not_lt.mpr ih hlt

/-- What lies between a text and one of its extensions extends it too. -/
theorem Text.extends_of_between {p t u : Text} (hlow : p ≤ t) (hhigh : t ≤ u) (hu : p <+: u) : p <+: t := by
  obtain ⟨tail, rfl⟩ := hu
  induction p generalizing t with
  | nil => exact List.nil_prefix
  | cons x p ih =>
    cases t with
    | nil => exact absurd (List.nil_lt_cons x p) (List.not_lt.mpr hlow)
    | cons y t =>
      rw [List.cons_append] at hhigh
      rw [← List.not_lt, List.cons_lt_cons_iff, not_or, not_and, List.not_lt] at hlow hhigh
      obtain rfl : x = y := UInt8.le_antisymm (UInt8.not_lt.mp hlow.1) (UInt8.not_lt.mp hhigh.1)
      exact List.cons_prefix_cons.mpr ⟨rfl, ih (hlow.2 rfl) (hhigh.2 rfl)⟩

end Bareword
