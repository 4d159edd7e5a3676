import Bareword.Pattern.Reading

/-! # Alternatives

The alternatives of a group become one node. What neighbouring alternatives start with in common is
taken out in front of them, first texts and then single parts; neighbours of one character each
become a class; and empty neighbours become one.

* `alternatives`: several alternatives as one node.
* `swapBar`: an alternative is complete.
* `alternate`: the alternatives on top of the stack as one node.
-/

namespace Bareword.Pattern
set_option autoImplicit false

/-! ## What neighbours have in common -/

/-- Neighbours that start with the same text. -/
structure TextRun where
  text : List Nat
  ignoresCase : Bool
  /-- The members, the last one first. -/
  members : List Node

/-- What two lists start with in common. -/
def commonFront : List Nat → List Nat → List Nat
  | a :: as, b :: bs => if a = b then a :: commonFront as bs else []
  | _, _ => []

/-- Adds a node to the last run of neighbours that start with the same text, or starts a new run.
The last run comes first. -/
def addToTextRuns (runs : List TextRun) (n : Node) : List TextRun :=
  let (text, ignoresCase) := n.leadingText
  match runs with
  | r :: rest =>
    let common := commonFront r.text text
    if ignoresCase = r.ignoresCase ∧ ¬ common.isEmpty then
      { r with text := common, members := n :: r.members } :: rest
    else ⟨text, ignoresCase, [n]⟩ :: runs
  | [] => [⟨text, ignoresCase, [n]⟩]

/-- Neighbours that start with the same part. -/
structure PartRun where
  part? : Option Node
  /-- The members, the last one first. -/
  members : List Node

/-- Adds a node to the last run of neighbours that start with the same part, or starts a new run.
The last run comes first. -/
def addToPartRuns (runs : List PartRun) (n : Node) : List PartRun :=
  let start : List PartRun := ⟨n.leadingPart?, [n]⟩ :: runs
  match runs with
  | ⟨some part, members⟩ :: rest =>
    match n.leadingPart? with
    | some part' =>
      if part.isFixed ∧ part.matchesLike part' then ⟨some part, n :: members⟩ :: rest else start
    | none => start
  | _ => start

/-! ## Taking out what is common -/

/-- A node without the first code points of the text it starts with. -/
def removeText (count : Nat) (n : Node) : Reading Node := do
  if n.op = .concat then
    match n.subs with
    | [] => return n
    | first :: others =>
      let first := first.dropCodes count
      if first.op = .empty then
        giveBack first
        match others with
        | [] => return { n.withSubs [] with op := .empty }
        | [only] =>
          giveBack n
          return only
        | _ => return n.withSubs others
      else return n.withSubs (first :: others)
  else return n.dropCodes count

/-- A node without the part it starts with, which is given back if it is not kept elsewhere. -/
def removePart (isKept : Bool) (n : Node) : Reading Node := do
  if n.op = .concat then
    match n.subs with
    | [] => return n
    | first :: others =>
      unless isKept do giveBack first
      match others with
      | [] => return { n.withSubs [] with op := .empty }
      | [only] =>
        giveBack n
        return only
      | _ => return n.withSubs others
  else
    unless isKept do giveBack n
    make .empty {} []

/-! ## Alternatives of one character -/

/-- The nodes with the one that covers most exchanged with the first one. -/
def mostFirst : List Node → List Node
  | [] => []
  | n :: ns =>
    let key (m : Node) : Nat × Nat := (m.rank?.getD 0, m.weight)
    let less (a b : Nat × Nat) : Bool := a.1 < b.1 || (a.1 == b.1 && a.2 < b.2)
    let best := ns.foldl (fun k m => if less k (key m) then key m else k) (key n)
    match ns.span fun m => key m ≠ best with
    | (_, []) => n :: ns
    | (before, m :: after) => if key n = best then n :: ns else m :: before ++ n :: after

/-- Several nodes of one character as a single one. -/
def mergeAll (ns : List Node) : Reading (List Node) := do
  match mostFirst ns with
  | n :: m :: others =>
    let mut n := n
    for m in m :: others do
      n := n.merge m
      giveBack m
    return [n.shortened]
  | ns => return ns

/-- Merges neighbours of one character each. -/
def mergeNeighbours (ns : List Node) : Reading (List Node) := do
  let mut done : Array Node := #[]
  let mut run : Array Node := #[]
  for n in ns do
    if n.isOneChar then run := run.push n
    else
      done := (done ++ (← mergeAll run.toList).toArray).push n
      run := #[]
  return (done ++ (← mergeAll run.toList).toArray).toList

/-- Leaves out every empty node that another empty one follows. -/
def dropEmpties : List Node → List Node
  | a :: b :: rest =>
    if a.op = .empty ∧ b.op = .empty then dropEmpties (b :: rest) else a :: dropEmpties (b :: rest)
  | ns => ns

/-! ## Alternatives -/

/-- Several alternatives as one node. The fuel bounds how often something is taken out in front of
what is left; every time at least a character is. -/
def alternatives : Nat → List Node → Reading Node
  | 0, ns => make .alternate {} ns
  | fuel + 1, ns => do
    let whole ← make .alternate {} []
    let ns ← hoist .alternate ns
    let ns ← (ns.foldl addToTextRuns []).reverse.mapM fun r => do
      match r.members.reverse with
      | [n] => return n
      | members =>
        let front ← make (.literal r.text.reverse) { ignoresCase := r.ignoresCase } []
        let members ← members.mapM fun n => do checkLimits (← removeText r.text.length n)
        let rest ← alternatives fuel members
        make .concat {} [front, rest]
    let ns ← (ns.foldl addToPartRuns []).reverse.mapM fun r => do
      match r.part?, r.members.reverse with
      | some part, first :: second :: others =>
        let first ← checkLimits (← removePart true first)
        let others ← (second :: others).mapM fun n => do checkLimits (← removePart false n)
        let rest ← alternatives fuel (first :: others)
        make .concat {} [part, rest]
      | _, members => return members.headD default
    let ns := dropEmpties (← mergeNeighbours ns)
    match ns with
    | [n] =>
      giveBack whole
      return n
    | _ => return whole.withSubs ns

/-- Moves the bar above the alternative on top of the stack, and merges it with the one before if
both are one character. The answer is whether there is a bar. -/
def swapBar : Reading Bool := do
  let s ← get
  match s.stack with
  | .node n :: .bar :: .node m :: rest =>
    match n.rank?, m.rank? with
    | some a, some b =>
      let (most, other) := if a > b then (n, m) else (m, n)
      set { s with stack := .bar :: .node (most.merge other) :: rest }
      giveBack other
    | _, _ => set { s with stack := .bar :: .node n :: .node m.shortened :: rest }
    return true
  | .node n :: .bar :: rest =>
    set { s with stack := .bar :: .node n :: rest }
    return true
  | _ => return false

/-- Ends an alternative that another one follows. -/
def endAlternative : Reading Unit := do
  concat
  unless ← swapBar do pushMarker .bar

/-- Puts the alternatives on top of the stack into a single node. -/
def alternate : Reading Unit := do
  concat
  if ← swapBar then modify fun s => { s with stack := s.stack.drop 1 }
  match ← takeNodes with
  | [] => push (← make .empty {} [])
  | ns =>
    match ns.dropLast ++ (ns.getLast?.map Node.shortened).toList with
    | [n] => push n
    | ns => push (← alternatives (← get).bound ns)

end Bareword.Pattern
