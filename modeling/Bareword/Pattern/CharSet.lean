import Bareword.Pattern.Names
import Bareword.Text.Fold

/-! # Sets of characters in patterns

The set that a class of a pattern stands for. Small Unicode classes are written out in it; large
ones are kept by name, which is all that the limits on patterns need.

* `CharSet.ofRuns`, `CharSet.ofProperty`: the sets of a class.
* `CharSet.union`, `CharSet.complement`, `CharSet.foldCase`: how classes are combined.
* `CharSet.single?`, `CharSet.casePair?`: the sets that are as good as one character.
-/

namespace Bareword.Pattern
set_option autoImplicit false
-- Sums are those of the core library, whatever instances are imported later.
attribute [local instance (high)] Zero.ofOfNat0

/-! ## Runs -/

def maxCode : Nat := 0x10FFFF

/-- Adds a run to sorted runs that lie apart. Runs that touch become one. -/
def insertRun (r : Run) : List Run → List Run
  | [] => [r]
  | s :: rest =>
    if r.2 + 1 < s.1 then r :: s :: rest
    else if s.2 + 1 < r.1 then s :: insertRun r rest
    else insertRun (min r.1 s.1, max r.2 s.2) rest

/-- The runs of the code points from `start` on that lie in none of some sorted runs. -/
def runsBetween (start : Nat) : List Run → List Run
  | [] => if start ≤ maxCode then [(start, maxCode)] else []
  | (low, high) :: rest =>
    (if start < low then [(start, low - 1)] else []) ++ runsBetween (high + 1) rest

/-! ## Sets -/

/-- A large Unicode class in a set. -/
structure NamedClass where
  name : String
  count : Nat
  isComplement : Bool
  deriving DecidableEq, Repr

/-- A set of characters: the runs and the large classes it consists of, or all other characters.
Only a set with large classes is kept as all others, and the union with such a set is kept as if it
were the others of both. -/
structure CharSet where
  runs : List Run := []
  named : List NamedClass := []
  isComplement : Bool := false
  deriving DecidableEq, Repr

namespace CharSet

def ofRuns (rs : List Run) : CharSet := { runs := rs.foldl (fun acc r => insertRun r acc) [] }

def ofCode (c : Nat) : CharSet := { runs := [(c, c)] }

def union (a b : CharSet) : CharSet :=
  { runs := b.runs.foldl (fun acc r => insertRun r acc) a.runs
    named := a.named ++ b.named.filter fun n => !a.named.contains n
    isComplement := a.isComplement || b.isComplement }

def complement (s : CharSet) : CharSet :=
  if s.named.isEmpty then { runs := runsBetween 0 s.runs }
  else { s with isComplement := !s.isComplement }

/-- The set with all characters that differ from a member in case only. -/
def foldCase (s : CharSet) : CharSet :=
  let cased := Text.casedCodes.filter fun c => s.runs.any fun (low, high) => low ≤ c && c ≤ high
  { s with runs :=
      (cased.flatMap Text.caseFamily).foldl (fun acc c => insertRun (c, c) acc) s.runs }

/-- The set of a class by its runs, with or without regard to case. -/
def ofClass (ignoresCase : Bool) (rs : List Run) : CharSet :=
  if ignoresCase then (ofRuns rs).foldCase else ofRuns rs

/-- The set of a Unicode class or of all characters outside it. -/
def ofProperty (ignoresCase isComplement : Bool) : Property → CharSet
  | .small rs =>
    if isComplement then (ofClass ignoresCase rs).complement else ofClass ignoresCase rs
  | .large name count => { named := [⟨name, count, isComplement⟩] }

/-- Whether a code point is known to be a member. -/
def holds (s : CharSet) (c : Nat) : Bool := s.runs.any fun (low, high) => low ≤ c && c ≤ high

/-- How many ends of runs a set has. -/
def weight (s : CharSet) : Nat := 2 * (s.runs.length + (s.named.map (·.count)).sum)

/-- The only member of a set. -/
def single? (s : CharSet) : Option Nat :=
  match s.runs, s.named with
  | [(low, high)], [] => if low = high then some low else none
  | _, _ => none

/-- The lesser of two members that differ in case only and from nothing else. -/
def casePair? (s : CharSet) : Option Nat :=
  let pair (a b : Nat) : Option Nat := if Text.caseFamily a = [a, b] then some a else none
  match s.runs, s.named with
  | [(a, b)], [] => if a + 1 = b then pair a b else none
  | [(a, a'), (b, b')], [] => if a = a' ∧ b = b' then pair a b else none
  | _, _ => none

def all : CharSet := { runs := [(0, maxCode)] }

def allButNewline : CharSet := (ofCode 10).complement

end CharSet
end Bareword.Pattern
