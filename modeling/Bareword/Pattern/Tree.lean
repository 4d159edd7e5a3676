import Bareword.Pattern.CharSet

/-! # Trees of patterns

What a pattern says, as far as the limits on patterns depend on it.

* `Node`: a node of a pattern with its parts.
* `Node.measured`, `Node.remeasured`: a node with its size on record.
* `Node.repeatsWithin`: whether nested repetitions stay within a limit.
* `Node.merge`: two alternatives of one character each as a single one.
-/

namespace Bareword.Pattern
set_option autoImplicit false
-- Sums are those of the core library, whatever instances are imported later.
attribute [local instance (high)] Zero.ofOfNat0

/-- The flags that hold at some place of a pattern. -/
structure Flags where
  ignoresCase : Bool := false
  isMultiline : Bool := false
  dotMatchesAll : Bool := false
  isLazy : Bool := false
  deriving DecidableEq, Repr, Inhabited

/-- What a node matches, or how it combines its parts. -/
inductive Op where
  | empty
  /-- The code points of a text, the last one first. -/
  | literal (codes : List Nat)
  | oneOf (set : CharSet)
  | anyButNewline
  | anyChar
  /-- A place between characters, such as the start of a line. -/
  | position
  | capture
  | star
  | plus
  | optional
  | counted (low : Nat) (high : Option Nat)
  | concat
  | alternate
  deriving DecidableEq, Repr, Inhabited

/-- A node. Its size is on record only once it was measured, and the record is not kept up when the
node changes. -/
structure Node where
  op : Op
  flags : Flags := {}
  subs : List Node := []
  height : Nat := 1
  size? : Option Nat := none
  deriving Repr, Inhabited

namespace Node

/-! ## Measures -/

/-- The height of a node with the given parts. -/
def heightOver (subs : List Node) : Nat := (subs.map (·.height)).foldl max 0 + 1

def withSubs (n : Node) (subs : List Node) : Node := { n with subs, height := heightOver subs }

/-- How many code points a node lists. -/
def weight (n : Node) : Nat :=
  match n.op with
  | .literal codes => codes.length
  | .oneOf set => set.weight
  | _ => 0

/-- The size of a node whose parts have the given sizes, when repetitions are written out. -/
def sizeOver (op : Op) (sizes : List Nat) : Nat :=
  let total := sizes.sum
  max 1 (match op with
    | .literal codes => codes.length
    | .capture | .star => 2 + total
    | .plus | .optional => 1 + total
    | .concat => total
    | .alternate => total + (sizes.length - 1)
    | .counted low none => if low = 0 then 2 + total else 1 + low * total
    | .counted low (some high) => high * total + (high - low)
    | _ => 0)

/-- The node with its size on record, and with those of its parts that it was computed from. -/
def measured (n : Node) : Node :=
  match n with
  | ⟨op, flags, subs, height, size?⟩ =>
    match size? with
    | some _ => n
    | none =>
      let subs := measuredAll subs
      ⟨op, flags, subs, height, some (sizeOver op (subs.map fun s => s.size?.getD 1))⟩
where
  /-- Several nodes with their sizes on record. -/
  measuredAll : List Node → List Node
    | [] => []
    | s :: ss => s.measured :: measuredAll ss

/-- The node with a new record of its size, from the records of its parts where there are any. -/
def remeasured (n : Node) : Node :=
  let subs := n.subs.map measured
  { n with subs, size? := some (sizeOver n.op (subs.map fun s => s.size?.getD 1)) }

/-- Whether nothing in the node is repeated more than `limit` times, nested repetitions
multiplied. -/
def repeatsWithin (limit : Nat) (n : Node) : Bool :=
  match n with
  | ⟨op, _, subs, _, _⟩ =>
    match op with
    | .counted _ (some 0) => true
    | .counted low high =>
      let times := high.getD low
      times ≤ limit && all (if times > 0 then limit / times else limit) subs
    | _ => all limit subs
where
  /-- Whether nothing in several nodes is repeated more than `limit` times. -/
  all (limit : Nat) : List Node → Bool
    | [] => true
    | s :: ss => s.repeatsWithin limit && all limit ss

/-! ## Alternatives of one character -/

/-- How much a node of one character covers: a literal least, any character most. Other nodes have
no rank. -/
def rank? (n : Node) : Option Nat :=
  match n.op with
  | .literal [_] => some 0
  | .oneOf _ => some 1
  | .anyButNewline => some 2
  | .anyChar => some 3
  | _ => none

/-- Whether a node matches one character out of a set. -/
def isOneChar (n : Node) : Bool := n.rank?.isSome

/-- The set of a literal of one character, or of a class. -/
def charSet (n : Node) : CharSet :=
  match n.op with
  | .literal [c] =>
    if n.flags.ignoresCase then .ofClass true [(c, c)] else .ofCode c
  | .oneOf set => set
  | .anyChar => .all
  | .anyButNewline => .allButNewline
  | _ => {}

/-- A node of one character that also matches what another one does, which has no higher rank. -/
def merge (n other : Node) : Node :=
  match n.op with
  | .anyChar => n
  | .anyButNewline => if other.charSet.holds 10 then { n with op := .anyChar } else n
  | .literal codes =>
    if other.op = .literal codes ∧ other.flags = n.flags then n
    else { n with op := .oneOf (n.charSet.union other.charSet) }
  | _ => { n with op := .oneOf (n.charSet.union other.charSet) }

/-- A class of all characters in its short form. -/
def shortened (n : Node) : Node :=
  match n.op with
  | .oneOf set =>
    if set = .all then { n with op := .anyChar }
    else if set = .allButNewline then { n with op := .anyButNewline }
    else n
  | _ => n

/-! ## First parts -/

/-- The text that a node starts with, in order, and whether its case counts not. -/
def leadingText (n : Node) : List Nat × Bool :=
  let first := if n.op = .concat then n.subs.headD n else n
  match first.op with
  | .literal codes => (codes.reverse, first.flags.ignoresCase)
  | _ => ([], false)

/-- The part that a node starts with. -/
def leadingPart? (n : Node) : Option Node :=
  match n.op with
  | .empty => none
  | .concat => n.subs.head?.filter fun s => s.op ≠ .empty
  | _ => some n

/-- A literal without its first code points. -/
def dropCodes (n : Node) (count : Nat) : Node :=
  match n.op with
  | .literal codes =>
    let codes := codes.take (codes.length - count)
    { n with op := if codes.isEmpty then .empty else .literal codes }
  | _ => n

/-- Whether a node is one character, or one character repeated a fixed number of times. -/
def isFixed (n : Node) : Bool :=
  n.isOneChar ||
    match n.op, n.subs with
    | .counted low high, [s] => high = some low && s.isOneChar
    | _, _ => false

/-- Whether two nodes that are both fixed match alike. Case is left out of account. -/
def matchesLike (a b : Node) : Bool :=
  a.op = b.op && a.subs.map (·.op) = b.subs.map (·.op) &&
    (a.isOneChar || a.flags.isLazy = b.flags.isLazy)

end Node
end Bareword.Pattern
