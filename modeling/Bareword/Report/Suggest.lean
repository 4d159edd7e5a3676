import Bareword.Text.Case

/-! # Suggestions

The names that are close to one that was not found.

* `editDistance`: the number of insertions, deletions and substitutions between two texts.
* `suggest`: the nearest candidates.
* `didYouMean`: a hint that names them.
-/

namespace Bareword.Report
set_option autoImplicit false

def maxSuggestions : Nat := 3

/-- The next row of the table of distances. `row` holds the distances from the part of the other
text read so far to every front of `as`; `above` is the entry before it, `left` the last new one. -/
def nextRow (b : Nat) : List Nat → List Nat → Nat → Nat → List Nat
  | a :: as, here :: row, above, left =>
    let entry := min (min (here + 1) (left + 1)) (above + if a = b then 0 else 1)
    entry :: nextRow b as row here entry
  | _, _, _, _ => []

/-- One step of the table: from the row of a text to the row of that text and `b`. -/
def distanceStep (as : List Nat) (row : List Nat) (b : Nat) : List Nat :=
  match row with
  | [] => []
  | first :: rest => (first + 1) :: nextRow b as rest first (first + 1)

/-- The edit distance of two lists, by a table of which one row is kept at a time. The shorter list
runs along the row. -/
def distance (xs ys : List Nat) : Nat :=
  let (as, bs) := if xs.length > ys.length then (ys, xs) else (xs, ys)
  (bs.foldl (distanceStep as) (List.range (as.length + 1))).getLastD 0

/-- The edit distance of two texts, counted in runes. -/
def editDistance (a b : Text) : Nat := distance (a.runes.map (·.code)) (b.runes.map (·.code))

/-- The largest distance that still counts as close: short names tolerate fewer edits. -/
def threshold (target : Text) : Nat :=
  if target.length ≤ 3 then 1 else if target.length ≤ 5 then 2 else 3

structure Scored where
  name : Text
  distance : Nat
  deriving DecidableEq, Repr

/-- Nearer candidates come first, and equally near ones by name. -/
def Scored.before (a b : Scored) : Bool :=
  if a.distance ≠ b.distance then a.distance < b.distance else Text.before a.name b.name

/-- Inserts a candidate into a sorted list. -/
def Scored.insert (s : Scored) : List Scored → List Scored
  | [] => [s]
  | t :: ts => if t.before s then t :: s.insert ts else s :: t :: ts

/-- The candidates that are close to the target, each once, sorted. -/
def close (target : Text) (candidates : List Text) : List Scored :=
  let names := (candidates.filter fun c => !c.isEmpty && c != target).eraseDups
  let scored := names.map fun c => ⟨c, editDistance target.lower c.lower⟩
  (scored.filter fun s => s.distance ≤ threshold target).foldr Scored.insert []

/-- At most three candidates that are close to the target, the nearest first. -/
def suggest (target : Text) (candidates : List Text) : List Text :=
  if target.isEmpty then []
  else ((close target candidates).take maxSuggestions).map (·.name)

/-- A hint that names the suggestions, or nothing when there are none. -/
def didYouMean : List Text → Text
  | [] => []
  | [s] => "did you mean '" ++ s ++ "'?"
  | ss => "did you mean one of '" ++ Text.join "', '" ss ++ "'?"

end Bareword.Report
