import Bareword.Search

/-! # Sets of code points

A set of code points as an array of ranges, sorted and apart from each other.
-/

namespace Bareword.Text
set_option autoImplicit false

/-- Sorted ranges of code points, both ends included. -/
abbrev Ranges := Array (Nat × Nat)

namespace Ranges

/-- Whether a code point lies in one of the ranges. -/
def holds (rs : Ranges) (c : Nat) : Bool :=
  let i := Search.lowerBound rs.size fun i => c ≤ (rs.getD i (0, 0)).2
  match rs[i]? with
  | none => false
  | some (lo, hi) => lo ≤ c && c ≤ hi

end Ranges
end Bareword.Text
