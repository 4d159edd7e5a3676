import Bareword.Proofs.Scope.Records
import Bareword.Proofs.Text.Order

/-! # Sorted names

Names are looked up by binary search, which finds what is there as long as the names are sorted.

* `Sorted`: names in order, each of them once.
* `holds_iff`: sorted names hold what is in them.
* `Sorted.foldl_bind`: names stay sorted when others are added.
-/

namespace Bareword
set_option autoImplicit false

namespace Scope

/-- The names are in order, and each of them is there once. -/
def Sorted (names : List Text) : Prop := names.Pairwise (· < ·)

variable {names : List Text} {name : Text}

theorem Sorted.nil : Sorted [] := List.Pairwise.nil

theorem Sorted.getElem?_lt (h : Sorted names) {i j : Nat} {x y : Text} (hij : i < j)
    (hx : names[i]? = some x) (hy : names[j]? = some y) : x < y := by
  obtain ⟨hi, rfl⟩ := List.getElem?_eq_some_iff.mp hx
  obtain ⟨hj, rfl⟩ := List.getElem?_eq_some_iff.mp hy
  exact List.pairwise_iff_getElem.mp h i j hi hj hij

/-- The place of a name parts the names before it from the others. -/
theorem Sorted.place (h : Sorted names) (name : Text) :
    place names name ≤ names.length ∧ (∀ i x, i < place names name → names[i]? = some x → x < name) ∧
      ∀ i x, place names name ≤ i → names[i]? = some x → ¬ x < name := by
  have hget {i : Nat} {x : Text} (hx : names[i]? = some x) : names.getD i [] = x := by
    rw [List.getD_eq_getElem?_getD, hx]
    rfl
  obtain ⟨hle, hbelow, habove⟩ := Search.between_spec (p := fun i => !Text.before (names.getD i []) name)
    (Nat.zero_le names.length) fun i j hij hj hi => by
      rcases Nat.lt_or_eq_of_le hij with hlt | rfl
      · obtain ⟨x, hx⟩ : ∃ x, names[i]? = some x := ⟨_, List.getElem?_eq_getElem (Nat.lt_trans hlt hj)⟩
        obtain ⟨y, hy⟩ : ∃ y, names[j]? = some y := ⟨_, List.getElem?_eq_getElem hj⟩
        have hxy := h.getElem?_lt hlt hx hy
        simp only [hget hx, hget hy, Bool.not_eq_true', Bool.eq_false_iff, ne_eq, Text.before_iff] at hi ⊢
        exact fun hlater => hi (List.lt_trans hxy hlater)
      · exact hi
  refine ⟨hle, fun i x hi hx => ?_, fun i x hi hx => ?_⟩
  · have hp := hbelow i (Nat.zero_le i) hi
    rw [hget hx, Bool.not_eq_false'] at hp
    exact (Text.before_iff x name).mp hp
  · have hp := habove i hi (List.getElem?_eq_some_iff.mp hx).1
    rw [hget hx, Bool.not_eq_true', Bool.eq_false_iff, ne_eq, Text.before_iff] at hp
    exact hp

/-- Sorted names hold what is in them. -/
theorem holds_iff (h : Sorted names) (name : Text) : holds names name = true ↔ name ∈ names := by
  refine ⟨mem_of_holds, fun hmem => ?_⟩
  obtain ⟨j, hj⟩ := List.mem_iff_getElem?.mp hmem
  obtain ⟨-, hbelow, habove⟩ := h.place name
  have hle : Scope.place names name ≤ j := by
    by_contra hlt
    exact List.lt_irrefl name (hbelow j name (Nat.lt_of_not_le hlt) hj)
  rcases Nat.lt_or_eq_of_le hle with hlt | heq
  · have hlen := (List.getElem?_eq_some_iff.mp hj).1
    obtain ⟨x, hx⟩ : ∃ x, names[Scope.place names name]? = some x :=
      ⟨_, List.getElem?_eq_getElem (Nat.lt_trans hlt hlen)⟩
    exact absurd (h.getElem?_lt hlt hx hj) (habove _ x (Nat.le_refl _) hx)
  · rw [holds, heq, hj]
    exact beq_self_eq_true _

theorem mem_bind (names : List Text) (name x : Text) : x ∈ bind names name ↔ x ∈ names ∨ x = name := by
  refine ⟨mem_of_mem_bind, fun h => ?_⟩
  rw [bind]
  split
  · rename_i hholds
    exact h.elim id fun heq => heq ▸ mem_of_holds hholds
  · have hsplit : x ∈ names ↔ x ∈ names.take (place names name) ∨ x ∈ names.drop (place names name) := by
      rw [← List.mem_append, List.take_append_drop]
    rw [hsplit] at h
    simp only [List.mem_append, List.mem_cons]
    tauto

theorem mem_foldl_bind (more names : List Text) (x : Text) :
    x ∈ more.foldl bind names ↔ x ∈ names ∨ x ∈ more := by
  induction more generalizing names with
  | nil => simp
  | cons name more ih => rw [List.foldl_cons, ih, mem_bind, List.mem_cons, or_assoc]

theorem Sorted.bind (h : Sorted names) (name : Text) : Sorted (bind names name) := by
  rw [Scope.bind]
  split
  · exact h
  · rename_i hholds
    rw [holds_iff h] at hholds
    obtain ⟨-, hbelow, habove⟩ := h.place name
    have hbefore : ∀ x ∈ names.take (Scope.place names name), x < name := by
      intro x hx
      obtain ⟨i, hi⟩ := List.mem_iff_getElem?.mp hx
      rw [List.getElem?_take, Option.ite_none_right_eq_some] at hi
      exact hbelow i x hi.1 hi.2
    have hafter : ∀ x ∈ names.drop (Scope.place names name), name < x := by
      intro x hx
      obtain ⟨i, hi⟩ := List.mem_iff_getElem?.mp hx
      rw [List.getElem?_drop] at hi
      have hnot := habove _ x (Nat.le_add_right _ _) hi
      by_contra hlt
      have heq := List.le_antisymm (List.not_lt.mp hlt) (List.not_lt.mp hnot)
      exact hholds (heq ▸ List.mem_of_mem_drop hx)
    refine List.pairwise_append.mpr ⟨h.take, List.pairwise_cons.mpr ⟨hafter, h.drop⟩, ?_⟩
    intro x hx y hy
    rcases List.mem_cons.mp hy with rfl | hy
    · exact hbefore x hx
    · exact List.lt_trans (hbefore x hx) (hafter y hy)

theorem Sorted.foldl_bind (h : Sorted names) (more : List Text) : Sorted (more.foldl Scope.bind names) := by
  induction more generalizing names with
  | nil => exact h
  | cons name more ih => exact ih (h.bind name)

/-- Names that are there already add nothing. -/
theorem Sorted.foldl_bind_of_mem (h : Sorted names) {more : List Text} (hmore : ∀ name ∈ more, name ∈ names) :
    more.foldl Scope.bind names = names := by
  induction more with
  | nil => rfl
  | cons name more ih =>
    rw [List.forall_mem_cons] at hmore
    rw [List.foldl_cons, Scope.bind, if_pos ((holds_iff h name).mpr hmore.1)]
    exact ih hmore.2

end Scope
end Bareword
