/-! # Binary search

`lowerBound n p` is the first number below `n` that satisfies `p`, or `n`, provided that `p` holds
from some number on; it looks at logarithmically many numbers.
-/

namespace Bareword.Search
set_option autoImplicit false

/-- The first number between `lo` and `hi` that satisfies `p`, or `hi`. -/
def between (p : Nat → Bool) (lo hi : Nat) : Nat :=
  if _h : lo < hi then
    let mid := (lo + hi) / 2
    if p mid then between p lo mid else between p (mid + 1) hi
  else lo
termination_by hi - lo

/-- The first number below `n` that satisfies `p`, or `n`. -/
def lowerBound (n : Nat) (p : Nat → Bool) : Nat := between p 0 n

end Bareword.Search
