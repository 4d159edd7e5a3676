import Bareword.Scope.Arena
import Bareword.Token.Kind
import Bareword.Tree.Kind

/-! # The scope of a parse

A context pairs the current scope with the names that were read but whose role is not settled, as
the assignment or the parameter list that would bind them is not complete.

* `Context.shift`: a terminal was consumed.
* `Context.reduce`: a node was completed.
* `Context.rewind`: back to an earlier context; the scopes made since stay in the arena.
-/

namespace Bareword.Scope
set_option autoImplicit false
open Digest (Hasher)

/-- The current scope and the names that wait to be bound. -/
structure Context where
  arena : Arena
  scope : Nat
  pending : List Text
  /-- How many names were waiting when the current parameter list began. -/
  paramStart : Option Nat
  deriving DecidableEq, Repr, Inhabited

namespace Context

/-- The context at the root of a new arena. -/
def new (hasher : Hasher) : Context := ⟨Arena.new hasher, root, [], none⟩

def inParams (c : Context) : Bool := c.paramStart.isSome

/-- Whether a name is bound in the current scope or around it. -/
def has (c : Context) (name : Text) : Bool := (c.arena.has? c.scope name).getD false

/-- The fingerprint of the current scope. Waiting names do not count. -/
def hash (c : Context) : UInt64 := (c.arena.hash? c.scope).getD 0

/-- The names bound in the current scope, in its parent, and so on up to the root. -/
def bindings (c : Context) : List (List Text) := (c.arena.chain c.scope).map (·.names)

/-- Binds names in a scope that the context knows to exist. -/
def bindIn (hasher : Hasher) (c : Context) (scope : Nat) (names : List Text) : Context :=
  match c.arena.add hasher scope names with
  | none => c
  | some (arena, id) => { c with arena, scope := id }

/-- Records a consumed terminal. -/
def shift (c : Context) (kind : Token.Kind) (text : Text) : Context :=
  match kind with
  | .kwFn => { c with paramStart := some c.pending.length }
  | .identifier => if c.inParams then { c with pending := c.pending ++ [text] } else c
  | .assignable => { c with pending := c.pending ++ [text] }
  | _ => c

/-- Binds the name that was read last. -/
def reduceAssign (hasher : Hasher) (c : Context) : Context :=
  match c.pending.getLast? with
  | none => c
  | some name => { c.bindIn hasher c.scope [name] with pending := c.pending.dropLast }

/-- Enters a scope that binds the names read since the parameter list began. -/
def reduceParams (hasher : Hasher) (c : Context) : Context :=
  let start := c.paramStart.getD c.pending.length
  match c.arena.push hasher c.scope with
  | none => c
  | some (arena, id) =>
    { ({ c with arena }.bindIn hasher id (c.pending.drop start)) with
      pending := c.pending.take start, paramStart := none }

/-- Records a completed node. -/
def reduce (hasher : Hasher) (c : Context) (kind : Tree.Kind) : Context :=
  match kind with
  | .assign => c.reduceAssign hasher
  | .params => c.reduceParams hasher
  | .functionDef => { c with scope := (c.arena.pop c.scope).getD c.scope }
  | _ => c

/-- Whether the current parameter list began after names that are gone. -/
def isStray (c : Context) : Bool := decide (c.pending.length < c.paramStart.getD 0)

/-- Records a completed node, and whether that could be done. A stray parameter list cannot be
completed; the scope entered for it stays in the arena. -/
def tryReduce (hasher : Hasher) (c : Context) (kind : Tree.Kind) : Context × Bool :=
  if kind = .params ∧ c.isStray then
    match c.arena.push hasher c.scope with
    | none => (c, false)
    | some (arena, _) => ({ c with arena }, false)
  else (c.reduce hasher kind, true)

/-- The context `c` as it was, in the arena of `now`. -/
def rewind (c now : Context) : Context := { c with arena := now.arena }

end Context
end Bareword.Scope
