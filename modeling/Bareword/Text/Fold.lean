import Bareword.Text.Case

/-! # Letters that differ in case only

Code points fall into families whose members differ in case only. Most families are a letter in
upper and in lower case; the others are listed.

* `Text.caseFamily`: the family of a code point.
* `Text.caseLeast`: the least member of that family.
-/

namespace Bareword.Text
set_option autoImplicit false

/-- The families that are not just the upper and the lower case of one letter. -/
def irregularFamilies : List (List Nat) :=
  [[0x4B, 0x6B, 0x212A], [0x53, 0x73, 0x17F], [0xB5, 0x39C, 0x3BC], [0xC5, 0xE5, 0x212B],
    [0xDF, 0x1E9E], [0x130], [0x131], [0x1C4, 0x1C5, 0x1C6], [0x1C7, 0x1C8, 0x1C9],
    [0x1CA, 0x1CB, 0x1CC], [0x1F1, 0x1F2, 0x1F3], [0x345, 0x399, 0x3B9, 0x1FBE],
    [0x390, 0x1FD3], [0x392, 0x3B2, 0x3D0], [0x395, 0x3B5, 0x3F5], [0x398, 0x3B8, 0x3D1, 0x3F4],
    [0x39A, 0x3BA, 0x3F0], [0x3A0, 0x3C0, 0x3D6], [0x3A1, 0x3C1, 0x3F1], [0x3A3, 0x3C2, 0x3C3],
    [0x3A6, 0x3C6, 0x3D5], [0x3A9, 0x3C9, 0x2126], [0x3B0, 0x1FE3], [0x412, 0x432, 0x1C80],
    [0x414, 0x434, 0x1C81], [0x41E, 0x43E, 0x1C82], [0x421, 0x441, 0x1C83],
    [0x422, 0x442, 0x1C84, 0x1C85], [0x42A, 0x44A, 0x1C86], [0x462, 0x463, 0x1C87],
    [0x1C88, 0xA64A, 0xA64B], [0x1E60, 0x1E61, 0x1E9B], [0xFB05, 0xFB06]]

/-- The code points that differ from `c` in case only, with `c` itself, in ascending order. -/
def caseFamily (c : Nat) : List Nat :=
  match irregularFamilies.find? (·.contains c) with
  | some family => family
  | none =>
    let low := mapCase lowerRanges c
    let other := if low ≠ c then low else mapCase upperRanges c
    if other = c then [c] else [min c other, max c other]

/-- The least code point that differs from `c` in case only. -/
def caseLeast (c : Nat) : Nat := (caseFamily c).headD c

/-- The code points of a range that move in case. -/
def CaseRange.toList (r : CaseRange) : List Nat :=
  (List.range ((r.hi - r.lo) / r.step + 1)).map fun i => r.lo + i * r.step

/-- All code points that can have others in their family. -/
def casedCodes : List Nat :=
  upperRanges.toList.flatMap CaseRange.toList ++ lowerRanges.toList.flatMap CaseRange.toList ++
    irregularFamilies.flatten

end Bareword.Text
