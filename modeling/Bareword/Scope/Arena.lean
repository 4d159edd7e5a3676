import Bareword.Digest
import Bareword.Search

/-! # Scopes

Which names are bound while a source is parsed. Scopes are records in an append-only arena and are
addressed by their index. Adding a name, entering a function and leaving one never change a record;
they answer with the index of a new record or of one that is already there, so attempts that are
given up later can hold different indexes into one arena.

* `Arena.add`, `Arena.push`, `Arena.pop`: bind names, enter a scope, leave a scope.
* `Arena.has`: whether a name is bound in a scope or in one of its ancestors.
* `Arena.chain`: the records from a scope up to its root.
* `Arena.equal`: whether two scopes bind the same names all the way up.

Every operation answers `none` for an index that no record has. The fingerprint function is a
parameter; `Digest.fingerprint` is the one in use.
-/

namespace Bareword.Scope
set_option autoImplicit false
open Digest (Hasher)

/-- A scope: its parent, the names it binds itself, sorted, and a fingerprint of the whole chain. -/
structure Record where
  parent : Option Nat
  names : List Text
  hash : UInt64
  deriving DecidableEq, Repr, Inhabited

/-- The scopes created so far. -/
structure Arena where
  records : Array Record
  deriving DecidableEq, Repr, Inhabited

/-- The index of the empty scope that every arena starts with. -/
def root : Nat := 0

/-! ## Sorted names -/

/-- The place of a name in a sorted list: the index of the first entry that is not smaller. -/
def place (names : List Text) (name : Text) : Nat :=
  Search.lowerBound names.length fun i => !Text.before (names.getD i []) name

/-- Whether a sorted list holds a name. -/
def holds (names : List Text) (name : Text) : Bool := names[place names name]? == some name

/-- A sorted list with a name added, unless it is there. -/
def bind (names : List Text) (name : Text) : List Text :=
  if holds names name then names
  else
    let i := place names name
    names.take i ++ name :: names.drop i

/-! ## Fingerprints -/

/-- The eight bytes of a word, the lowest first. -/
def wordBytes (w : UInt64) : Text :=
  (List.range 8).map fun i => (w >>> (8 * i).toUInt64).toUInt8

/-- The bytes whose fingerprint identifies a scope: its names, each closed by a zero byte, and then
a one and the fingerprint of the parent, if there is one. -/
def signature (names : List Text) (parent : Option UInt64) : Text :=
  names.flatMap (· ++ [0]) ++
    match parent with
    | none => []
    | some h => 1 :: wordBytes h

namespace Arena

/-- The arena that holds only the empty root scope. -/
def new (hasher : Hasher) : Arena := ⟨#[⟨none, [], hasher (signature [] none)⟩]⟩

def size (a : Arena) : Nat := a.records.size

def get? (a : Arena) (id : Nat) : Option Record := a.records[id]?

/-- Appends a record; answers with its index. -/
def alloc (a : Arena) (r : Record) : Arena × Nat := (⟨a.records.push r⟩, a.records.size)

def hash? (a : Arena) (id : Nat) : Option UInt64 := (a.get? id).map (·.hash)

/-- A scope with the parent of `id` that binds the names of `id` and `names`; `id` itself when that
adds nothing. -/
def add (hasher : Hasher) (a : Arena) (id : Nat) (names : List Text) : Option (Arena × Nat) :=
  match a.get? id with
  | none => none
  | some r =>
    let merged := names.foldl bind r.names
    if merged.length = r.names.length then some (a, id)
    else
      let parentHash := r.parent.map fun p => (a.hash? p).getD 0
      some (a.alloc ⟨r.parent, merged, hasher (signature merged parentHash)⟩)

/-- A new scope inside `id` that binds nothing itself. -/
def push (hasher : Hasher) (a : Arena) (id : Nat) : Option (Arena × Nat) :=
  match a.get? id with
  | none => none
  | some r => some (a.alloc ⟨some id, [], hasher (signature [] (some r.hash))⟩)

/-- The parent of a scope, or the scope itself when it is a root. -/
def pop (a : Arena) (id : Nat) : Option Nat := (a.get? id).map fun r => r.parent.getD id

/-- The names that a scope binds itself, sorted. -/
def names? (a : Arena) (id : Nat) : Option (List Text) := (a.get? id).map (·.names)

/-- The records from a scope up to its root. A parent always has a smaller index. -/
def chain (a : Arena) (id : Nat) : List Record :=
  match a.get? id with
  | none => []
  | some r =>
    match r.parent with
    | none => [r]
    | some p => if _h : p < id then r :: chain a p else [r]
termination_by id

/-- The number of ancestors of a scope. -/
def depth? (a : Arena) (id : Nat) : Option Nat := (a.get? id).map fun _ => (a.chain id).length - 1

/-- Whether a name is bound in a scope or in one of its ancestors. -/
def has? (a : Arena) (id : Nat) (name : Text) : Option Bool :=
  (a.get? id).map fun _ => (a.chain id).any fun r => holds r.names name

/-- Whether two scopes, either of which may be no scope at all, bind the same names along their
whole chains. -/
def equal? (a : Arena) (x y : Option Nat) : Option Bool :=
  if x = y then some true
  else
    match x, y with
    | some i, some j =>
      match a.get? i, a.get? j with
      | some rx, some ry =>
        if rx.hash ≠ ry.hash ∨ rx.names ≠ ry.names then some false
        else
          match rx.parent with
          | none => some ry.parent.isNone
          | some p => if _h : p < i then equal? a (some p) ry.parent else some false
      | _, _ => none
    | _, _ => some false
termination_by x

end Arena

/-- What is reported when an index addresses no record. -/
def invalidId : String := "scope: invalid id"

end Bareword.Scope
