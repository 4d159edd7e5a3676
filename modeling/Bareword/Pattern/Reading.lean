import Bareword.Pattern.Escape
import Bareword.Pattern.Tree

/-! # The state of reading a pattern

A pattern is read from left to right onto a stack of nodes, groups that are still open, and a bar
above the alternatives of the innermost group. Literals that stand next to each other become one as
soon as no repetition can apply to the last of them alone.

A pattern may not be too large or nest too deeply. Sizes are put on record only from the time on
when the number of nodes and the repetitions allow for a large pattern. A node that is no longer
needed is given back, and the next one that is made takes over its record.

* `State`, `Reading`: what was read so far, and steps that may fail.
* `checkLimits`: the limits on a node.
* `push`, `pushMarker`: what is added to the stack.
* `concat`: the nodes on top of the stack as one.
-/

namespace Bareword.Pattern
set_option autoImplicit false

/-! ## Limits -/

/-- How high the tree of a pattern may be. -/
def maxHeight : Nat := 1000

/-- How often a part may be repeated, nested repetitions multiplied. -/
def maxCopies : Nat := 1000

/-- How large a pattern may be. -/
def maxSize : Nat := 3355443

/-- How many code points the literals and classes of a pattern may list. -/
def maxWeight : Nat := 33554432

/-! ## State -/

/-- What stands on the stack. -/
inductive Item where
  | node (n : Node)
  /-- An open group, with the flags that hold around it. -/
  | opening (isCapture : Bool) (outer : Flags)
  /-- The bar above the alternatives that are complete. -/
  | bar
  deriving Repr, Inhabited

/-- The node that an item is. -/
def Item.node? : Item → Option Node
  | .node n => some n
  | _ => none

/-- What was read so far. -/
structure State where
  whole : Text
  /-- More than the number of bytes of the pattern. -/
  bound : Nat
  flags : Flags := {}
  /-- The stack, with its top first. -/
  stack : List Item := []
  /-- The records of the nodes that were given back, the last one first. -/
  spare : List (Option Nat) := []
  /-- How many nodes were made and not taken from those given back. -/
  made : Nat := 0
  /-- How many code points were listed. -/
  weight : Nat := 0
  /-- The product of the repetitions, up to a limit. -/
  repeats : Nat := 1
  /-- Whether sizes are on record. -/
  keepsSizes : Bool := false
  deriving Repr

/-- A step of reading. -/
abbrev Reading := StateT State (Except Fault)

/-- Fails for the pattern as a whole. -/
def refuseWhole {α : Type} (reason : Reason) : Reading α := do
  throw ⟨reason, (← get).whole⟩

/-! ## Nodes -/

/-- Takes the record of a node that was given back, or counts a new node. -/
def takeRecord : Reading (Option Nat) :=
  modifyGet fun s =>
    match s.spare with
    | [] => (none, { s with made := s.made + 1 })
    | record :: spare => (record, { s with spare })

/-- Gives back a node. -/
def giveBack (n : Node) : Reading Unit := modify fun s => { s with spare := n.size? :: s.spare }

def make (op : Op) (flags : Flags) (subs : List Node) : Reading Node := do
  return { op, flags, subs, height := Node.heightOver subs, size? := ← takeRecord }

/-- How often a node repeats its part, at least once. -/
def repeatCount (n : Node) : Nat :=
  match n.op with
  | .counted low high => max 1 (high.getD low)
  | _ => 1

/-- Puts the size of a node on record, or starts to do so, unless no pattern can be large yet. -/
def checkSize (n : Node) : Reading Node := do
  let s ← get
  let repeats := if s.keepsSizes then s.repeats else min maxSize (s.repeats * repeatCount n)
  if !s.keepsSizes && s.made < maxSize / repeats then
    set { s with repeats }
    return n
  else
    let stack := if s.keepsSizes then s.stack else
      s.stack.map fun
        | .node m => .node m.remeasured
        | item => item
    let n := n.remeasured
    set { s with repeats, stack, keepsSizes := true }
    let isLarge (m : Node) : Bool := m.size?.getD 1 > maxSize
    if isLarge n || (!s.keepsSizes && (stack.filterMap Item.node?).any isLarge) then
      refuseWhole .tooLarge
    else return n

/-- A node that is within the limits, with its size on record if sizes are. -/
def checkLimits (n : Node) : Reading Node := do
  if (← get).weight > maxWeight then refuseWhole .tooLarge
  let n ← checkSize n
  if n.height > maxHeight then refuseWhole .tooDeep
  return n

/-! ## The stack -/

/-- Joins two literals on top of the stack. If there are two and a next character is given, it
becomes the top and the answer is true. -/
def joinLiterals (next : Option (Nat × Flags)) : Reading Bool := do
  let s ← get
  match s.stack with
  | .node last :: .node before :: rest =>
    match last.op, before.op with
    | .literal codes, .literal codes' =>
      if last.flags.ignoresCase = before.flags.ignoresCase then
        let joined : Item := .node { before with op := .literal (codes ++ codes') }
        match next with
        | some (c, flags) =>
          set { s with stack := .node { last with op := .literal [c], flags } :: joined :: rest }
          return true
        | none =>
          set { s with stack := joined :: rest }
          giveBack last
          return false
      else return false
    | _, _ => return false
  | _ => return false

/-- Puts a node on the stack that was checked against the limits. -/
def pushChecked (n : Node) : Reading Unit := do
  let n ← checkLimits n
  modify fun s => { s with stack := .node n :: s.stack }

/-- Puts a node on the stack. A class that is as good as one character becomes a literal. -/
def push (n : Node) : Reading Unit := do
  modify fun s => { s with weight := s.weight + n.weight }
  let flags := (← get).flags
  let literal? : Option (Nat × Flags) :=
    match n.op with
    | .oneOf set =>
      (set.single?.map fun c => (c, { flags with ignoresCase := false })) <|>
        set.casePair?.map fun c => (c, { flags with ignoresCase := true })
    | _ => none
  unless ← joinLiterals literal? do
    match literal? with
    | some (c, flags) => pushChecked { n with op := .literal [c], flags }
    | none => pushChecked n

def pushNew (op : Op) : Reading Unit := do
  push (← make op (← get).flags [])

def pushLiteral (c : Nat) : Reading Unit := do
  pushNew (.literal [if (← get).flags.ignoresCase then Text.caseLeast c else c])

/-- Puts something else than a node on the stack. -/
def pushMarker (item : Item) : Reading Unit := do
  let _ ← takeRecord
  let _ ← joinLiterals none
  modify fun s => { s with stack := item :: s.stack }
  let _ ← checkLimits { op := .position }

/-- Takes the nodes from the top of the stack, and answers them in their order. -/
def takeNodes : Reading (List Node) :=
  modifyGet fun s =>
    let (top, rest) := s.stack.span fun i => i.node?.isSome
    ((top.filterMap Item.node?).reverse, { s with stack := rest })

/-- The parts of several nodes, in which nodes with the operation `op` are replaced by their parts
and given back. -/
def hoist (op : Op) (ns : List Node) : Reading (List Node) := do
  let mut parts : Array Node := #[]
  for n in ns do
    if n.op = op then
      giveBack n
      parts := parts ++ n.subs.toArray
    else parts := parts.push n
  return parts.toList

/-- Puts the nodes on top of the stack one after the other into a single node. -/
def concat : Reading Unit := do
  let _ ← joinLiterals none
  match ← takeNodes with
  | [] => push (← make .empty {} [])
  | [n] => push n
  | ns =>
    let whole ← make .concat {} []
    push (whole.withSubs (← hoist .concat ns))

end Bareword.Pattern
