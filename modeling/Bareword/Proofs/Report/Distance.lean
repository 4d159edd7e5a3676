import Bareword.Report.Suggest
import Mathlib

/-! # Edit distances

The table of distances, of which one row is kept at a time, ends with the distance that the recursion on
both lists gives. That is the least number of edits that turn one list into the other, and so it does not
matter from which end the lists are read and which of them runs along the row.

* `edits`: the distance by recursion.
* `Turns`: some number of edits turns one list into another.
* `tableRow`: a row of the table.
* `distance_eq`: the table against the recursion.
-/

namespace Bareword.Report
set_option autoImplicit false

/-- The edit distance of two lists: with one of them empty, the length of the other; else the least of what
it costs to drop the head of the first list, to put the head of the second one in front, and to turn one
head into the other. -/
def edits : List Nat → List Nat → Nat
  | [], ys => ys.length
  | xs, [] => xs.length
  | x :: xs, y :: ys =>
    min (min (edits xs (y :: ys) + 1) (edits (x :: xs) ys + 1)) (edits xs ys + if x = y then 0 else 1)
termination_by xs ys => xs.length + ys.length

/-- So many edits turn the first list into the second one. -/
inductive Turns : List Nat → List Nat → Nat → Prop where
  | nil : Turns [] [] 0
  | keep {xs ys : List Nat} {n : Nat} (x : Nat) (h : Turns xs ys n) : Turns (x :: xs) (x :: ys) n
  | drop {xs ys : List Nat} {n : Nat} (x : Nat) (h : Turns xs ys n) : Turns (x :: xs) ys (n + 1)
  | insert {xs ys : List Nat} {n : Nat} (y : Nat) (h : Turns xs ys n) : Turns xs (y :: ys) (n + 1)
  | replace {xs ys : List Nat} {n : Nat} (x y : Nat) (h : Turns xs ys n) : Turns (x :: xs) (y :: ys) (n + 1)

variable {xs ys us vs : List Nat} {m n : Nat}

/-! ## The recursion -/

theorem edits_nil_left (ys : List Nat) : edits [] ys = ys.length := by rw [edits]

theorem edits_nil_right (xs : List Nat) : edits xs [] = xs.length := by
  cases xs <;> simp [edits]

theorem edits_cons_cons (x y : Nat) (xs ys : List Nat) :
    edits (x :: xs) (y :: ys) =
      min (min (edits xs (y :: ys) + 1) (edits (x :: xs) ys + 1)) (edits xs ys + if x = y then 0 else 1) := by
  rw [edits]

theorem edits_cons_left_le (x : Nat) (xs ys : List Nat) : edits (x :: xs) ys ≤ edits xs ys + 1 := by
  cases ys with
  | nil => rw [edits_nil_right, edits_nil_right, List.length_cons]
  | cons y ys =>
    rw [edits_cons_cons]
    exact (min_le_left _ _).trans (min_le_left _ _)

theorem edits_cons_right_le (y : Nat) (xs ys : List Nat) : edits xs (y :: ys) ≤ edits xs ys + 1 := by
  cases xs with
  | nil => rw [edits_nil_left, edits_nil_left, List.length_cons]
  | cons x xs =>
    rw [edits_cons_cons]
    exact (min_le_left _ _).trans (min_le_right _ _)

/-! ## Edits one by one -/

theorem Turns.dropAll (xs : List Nat) : Turns xs [] xs.length := by
  induction xs with
  | nil => exact .nil
  | cons x xs ih => exact .drop x ih

theorem Turns.insertAll (ys : List Nat) : Turns [] ys ys.length := by
  induction ys with
  | nil => exact .nil
  | cons y ys ih => exact .insert y ih

/-- The distance can be reached. -/
theorem turns_edits (xs ys : List Nat) : Turns xs ys (edits xs ys) := by
  fun_induction edits xs ys with
  | case1 ys => exact .insertAll ys
  | case2 xs => exact .dropAll xs
  | case3 x xs y ys ihDrop ihInsert ihBoth =>
    have hboth : Turns (x :: xs) (y :: ys) (edits xs ys + if x = y then 0 else 1) := by
      split
      · rename_i heq
        exact heq ▸ .keep x ihBoth
      · exact .replace x y ihBoth
    rcases min_choice (min (edits xs (y :: ys) + 1) (edits (x :: xs) ys + 1))
        (edits xs ys + if x = y then 0 else 1) with h | h
    · rw [h]
      rcases min_choice (edits xs (y :: ys) + 1) (edits (x :: xs) ys + 1) with h | h
      · rw [h]
        exact .drop x ihDrop
      · rw [h]
        exact .insert y ihInsert
    · rw [h]
      exact hboth

/-- The distance cannot be undercut. -/
theorem Turns.edits_le (h : Turns xs ys n) : edits xs ys ≤ n := by
  induction h with
  | nil => rw [edits_nil_left, List.length_nil]
  | @keep xs ys n x _ ih =>
    rw [edits_cons_cons, if_pos rfl]
    exact (min_le_right _ _).trans ih
  | @drop xs ys n x _ ih => exact (edits_cons_left_le x xs ys).trans (Nat.succ_le_succ ih)
  | @insert xs ys n y _ ih => exact (edits_cons_right_le y xs ys).trans (Nat.succ_le_succ ih)
  | @replace xs ys n x y _ ih =>
    have hcost : (if x = y then 0 else 1) ≤ 1 := by split <;> omega
    rw [edits_cons_cons]
    exact (min_le_right _ _).trans (Nat.add_le_add ih hcost)

theorem Turns.symm (h : Turns xs ys n) : Turns ys xs n := by
  induction h with
  | nil => exact .nil
  | keep x _ ih => exact .keep x ih
  | drop x _ ih => exact .insert x ih
  | insert y _ ih => exact .drop y ih
  | replace x y _ ih => exact .replace y x ih

theorem Turns.append (h : Turns xs ys n) (h' : Turns us vs m) : Turns (xs ++ us) (ys ++ vs) (n + m) := by
  induction h with
  | nil => rwa [Nat.zero_add]
  | keep x _ ih => exact .keep x ih
  | @drop xs ys n x _ ih =>
    rw [Nat.add_right_comm]
    exact .drop x ih
  | @insert xs ys n y _ ih =>
    rw [Nat.add_right_comm]
    exact .insert y ih
  | @replace xs ys n x y _ ih =>
    rw [Nat.add_right_comm]
    exact .replace x y ih

theorem Turns.reverse (h : Turns xs ys n) : Turns xs.reverse ys.reverse n := by
  induction h with
  | nil => exact .nil
  | @keep xs ys n x _ ih =>
    rw [List.reverse_cons, List.reverse_cons]
    exact ih.append (.keep x .nil)
  | @drop xs ys n x _ ih =>
    rw [List.reverse_cons, ← List.append_nil ys.reverse]
    exact ih.append (.drop x .nil)
  | @insert xs ys n y _ ih =>
    rw [List.reverse_cons, ← List.append_nil xs.reverse]
    exact ih.append (.insert y .nil)
  | @replace xs ys n x y _ ih =>
    rw [List.reverse_cons, List.reverse_cons]
    exact ih.append (.replace x y .nil)

theorem edits_comm (xs ys : List Nat) : edits xs ys = edits ys xs :=
  Nat.le_antisymm (turns_edits ys xs).symm.edits_le (turns_edits xs ys).symm.edits_le

theorem edits_reverse (xs ys : List Nat) : edits xs.reverse ys.reverse = edits xs ys := by
  refine Nat.le_antisymm (turns_edits xs ys).reverse.edits_le ?_
  have h := (turns_edits xs.reverse ys.reverse).reverse
  rw [List.reverse_reverse, List.reverse_reverse] at h
  exact h.edits_le

/-! ## The table -/

/-- The distances from a list to the fronts of another one that reach at least to `front`. Both the list
and the fronts are held back to front. -/
def tableRow (back : List Nat) : List Nat → List Nat → List Nat
  | front, [] => [edits front back]
  | front, a :: as => edits front back :: tableRow back (a :: front) as

theorem tableRow_eq_cons (back front as : List Nat) :
    tableRow back front as = edits front back :: (tableRow back front as).tail := by
  cases as <;> rfl

theorem getLastD_tableRow (back front as : List Nat) (d : Nat) :
    (tableRow back front as).getLastD d = edits (as.reverse ++ front) back := by
  induction as generalizing front d with
  | nil => rfl
  | cons a as ih => rw [tableRow, List.getLastD_cons, ih, List.reverse_cons, List.append_assoc, List.singleton_append]

theorem tableRow_nil (front as : List Nat) :
    tableRow [] front as = List.range' front.length (as.length + 1) := by
  induction as generalizing front with
  | nil => rw [tableRow, edits_nil_right, List.length_nil, Nat.zero_add, List.range'_one]
  | cons a as ih =>
    have hrest : List.range' front.length (as.length + 1 + 1) =
        front.length :: List.range' (front.length + 1) (as.length + 1) := List.range'_succ
    rw [tableRow, ih, edits_nil_right, List.length_cons, List.length_cons, hrest]

/-- From the row of a list the next one is that of the list with one more element: an entry is computed
from the one before it, the one above it and the one above that one before it. -/
theorem nextRow_tableRow (b : Nat) (back front as : List Nat) :
    nextRow b as (tableRow back front as).tail (edits front back) (edits front (b :: back)) =
      (tableRow (b :: back) front as).tail := by
  induction as generalizing front with
  | nil => rfl
  | cons a as ih =>
    have hentry : min (min (edits (a :: front) back + 1) (edits front (b :: back) + 1))
        (edits front back + if a = b then 0 else 1) = edits (a :: front) (b :: back) := by
      rw [edits_cons_cons, min_comm (edits front (b :: back) + 1)]
    rw [tableRow, tableRow, List.tail_cons, List.tail_cons, tableRow_eq_cons back (a :: front) as, nextRow,
      hentry, ih, ← tableRow_eq_cons]

theorem distanceStep_tableRow (b : Nat) (back as : List Nat) :
    distanceStep as (tableRow back [] as) b = tableRow (b :: back) [] as := by
  have hfirst : edits [] back + 1 = edits [] (b :: back) := by
    rw [edits_nil_left, edits_nil_left, List.length_cons]
  rw [tableRow_eq_cons back [] as, distanceStep, hfirst, nextRow_tableRow, ← tableRow_eq_cons]

/-- After some elements the row is that of the list of them. -/
theorem foldl_distanceStep (bs back as : List Nat) :
    bs.foldl (distanceStep as) (tableRow back [] as) = tableRow (bs.reverse ++ back) [] as := by
  induction bs generalizing back with
  | nil => rfl
  | cons b bs ih =>
    rw [List.foldl_cons, distanceStep_tableRow, ih, List.reverse_cons, List.append_assoc, List.singleton_append]

/-- The table ends with the distance of the lists. -/
theorem getLastD_table (as bs : List Nat) :
    (bs.foldl (distanceStep as) (List.range (as.length + 1))).getLastD 0 = edits as bs := by
  have hstart : List.range (as.length + 1) = tableRow [] [] as := by
    rw [tableRow_nil, List.length_nil, List.range_eq_range']
  rw [hstart, foldl_distanceStep, getLastD_tableRow, List.append_nil, List.append_nil, edits_reverse]

/-- Whichever list runs along the row, the table gives the distance by recursion. -/
theorem distance_eq (xs ys : List Nat) : distance xs ys = edits xs ys := by
  rw [distance]
  split
  rename_i as bs hsides
  rw [getLastD_table]
  split at hsides
  · cases hsides
    exact edits_comm _ _
  · cases hsides
    rfl

end Bareword.Report
