import Bareword.Toml.Written

/-! # TOML documents

What the statements of a document say together. The document is a tree of tables that grows with
every statement. A table may be named before it is opened: such a table is only implied, and it may
still be opened once. A key that holds a list may be given another value; any other key may not.

* `Toml.Entry`: what stands under a key while the document grows.
* `Toml.Document.openTable?`, `Toml.Document.set?`: a table that statements go on with, a key that is
  given a value.
* `Toml.parse?`: the table that a text stands for.
-/

namespace Bareword.Toml
set_option autoImplicit false

/-- What stands under a key while the document grows. -/
inductive Entry where
  /-- A value that nothing can be added to. -/
  | leaf (v : Toml)
  | table (fields : List (Text × Entry))
  /-- A list of tables, of which only the last can grow. -/
  | tables (earlier : List Toml) (last : List (Text × Entry))
  deriving Inhabited

/-- The entries of a table. -/
abbrev Entries := List (Text × Entry)

namespace Entry

/-- The value of an entry. -/
def toToml : Entry → Toml
  | .leaf v => v
  | .table fields => .table (toFields fields)
  | .tables earlier last => .list (earlier ++ [.table (toFields last)])
where
  /-- The values of entries. -/
  toFields : List (Text × Entry) → List (Text × Toml)
    | [] => []
    | (k, e) :: rest => (k, e.toToml) :: toFields rest

/-- The entry of a value. -/
def ofToml : Toml → Entry
  | .table fields => .table (ofFields fields)
  | v => .leaf v
where
  /-- The entries of fields. -/
  ofFields : List (Text × Toml) → List (Text × Entry)
    | [] => []
    | (k, v) :: rest => (k, ofToml v) :: ofFields rest

end Entry

namespace Entries

def set (key : Text) (e : Entry) : Entries → Entries
  | [] => [(key, e)]
  | (k, old) :: rest => if k = key then (key, e) :: rest else (k, old) :: set key e rest

/-- Changes the entries of the table that a path leads to. Every table on the path has to be there;
of a list of tables the last one is taken. -/
def modify? (f : Entries → Option Entries) : List Text → Entries → Option Entries
  | [], es => f es
  | k :: path, es =>
    match es.lookup k with
    | some (.table fields) => (modify? f path fields).map fun fields => set k (.table fields) es
    | some (.tables earlier last) =>
      (modify? f path last).map fun last => set k (.tables earlier last) es
    | _ => none

/-- The entry at the end of a path. -/
def find? : List Text → Entries → Option Entry
  | [], es => some (.table es)
  | [k], es => es.lookup k
  | k :: path, es =>
    match es.lookup k with
    | some (.table fields) => find? path fields
    | some (.tables _ last) => find? path last
    | _ => none

end Entries

/-- A document that grows. -/
structure Document where
  root : Entries := []
  /-- The tables that are only implied. -/
  implied : List (List Text) := []
  /-- The keys that hold lists. -/
  lists : List (List Text) := []
  /-- The table that statements go on with. -/
  context : List Text := []

namespace Document

/-- Marks a table as implied. -/
def imply (d : Document) (path : List Text) : Document := { d with implied := path :: d.implied }

/-- Takes the mark of a table away. -/
def settle (d : Document) (path : List Text) : Document :=
  { d with implied := d.implied.filter (· != path) }

/-- Notes whether a key of the context holds a list. The empty key stands for the context itself,
unless that is the root. -/
def note (d : Document) (key : Text) (isList : Bool) : Document :=
  let path := if key.isEmpty ∧ ¬ d.context.isEmpty then d.context else d.context ++ [key]
  let others := d.lists.filter (· != path)
  { d with lists := if isList then path :: others else others }

/-- Gives a key of the context a value. A key that holds a list gets the new value, an implied table
stays as it is and is implied no longer, and any other key must be new. -/
def set? (d : Document) (key : Text) (e : Entry) : Option Document :=
  let path := d.context ++ [key]
  let put : Option Document :=
    (Entries.modify? (fun es => some (Entries.set key e es)) d.context d.root).map fun root =>
      { d with root }
  match Entries.find? d.context d.root with
  | some (.table es) | some (.tables _ es) =>
    if (es.lookup key).isNone then put
    else if d.lists.contains path then put.map (·.settle path)
    else if d.implied.contains path then some (d.settle path)
    else none
  | _ => none

/-- Makes sure that the tables on a path are there; new ones are implied. `done` leads to the table
in which the path starts. -/
def imagine? (d : Document) (done : List Text) : List Text → Option Document
  | [] => some d
  | k :: path =>
    let here := done ++ [k]
    match Entries.find? here d.root with
    | some (.table _) | some (.tables _ _) => imagine? d here path
    | some (.leaf _) => none
    | none =>
      match Entries.modify? (fun es => some (Entries.set k (.table []) es)) done d.root with
      | none => none
      | some root => imagine? ({ d with root }.imply here) here path

/-- Adds an empty table to the list of tables under a key of the context. -/
def appendTable? (d : Document) (key : Text) : Option Document :=
  (Entries.modify?
    (fun es =>
      match es.lookup key with
      | none => some (Entries.set key (.tables [] []) es)
      | some (.tables earlier last) =>
        some (Entries.set key (.tables (earlier ++ [(Entry.table last).toToml]) []) es)
      | _ => none)
    d.context d.root).map fun root => { d with root }

/-- Makes a table, or the next one of a list, the table that statements go on with. -/
def openTable? (d : Document) (isList : Bool) (path : List Text) : Option Document :=
  match path.getLast? with
  | none => none
  | some key => do
    let d ← d.imagine? [] path.dropLast
    let d := { d with context := path.dropLast }
    let d ← if isList then d.appendTable? key else d.set? key (.table [])
    return { d with context := path }

/-- Goes on with a table that is implied by a longer key, one name after the other. -/
def descend? (d : Document) : List Text → Option Document
  | [] => some d
  | k :: path =>
    let here := d.context ++ [k]
    match (d.imply here).openTable? false here with
    | none => none
    | some d => descend? d path

end Document

/-! ## Values -/

/-- Puts a value at the end of a path into fields. -/
def putAt? (value : Toml) : List Text → List (Text × Toml) → Option (List (Text × Toml))
  | [], _ => none
  | [k], fields => some (setField k value fields)
  | k :: path, fields =>
    match fields.lookup k with
    | none => (putAt? value path []).map fun inner => setField k (.table inner) fields
    | some (.table inner) =>
      (putAt? value path inner).map fun inner => setField k (.table inner) fields
    | some _ => none

mutual

/-- The value of what is written under a key of the context. Tables on one line go into the document
key by key, so that the rules for keys hold for them too. -/
def Written.enter? (d : Document) (key : Text) (inList : Bool) : Written → Option (Toml × Document)
  | .scalar v => some (v, d)
  | .list items =>
    match enterItems? (d.note key true) key items with
    | none => none
    | some (vs, d) => some (.list vs, d)
  | .table fields =>
    let path := d.context ++ [key]
    match (d.imply path).openTable? inList path with
    | none => none
    | some inner =>
      match enterFields? inner [] fields with
      | none => none
      | some (vs, inner) => some (.table vs, { inner with context := d.context })

/-- The values of items. -/
def enterItems? (d : Document) (key : Text) : List Written → Option (List Toml × Document)
  | [] => some ([], d)
  | w :: rest =>
    match w.enter? d key true with
    | none => none
    | some (v, d) =>
      match enterItems? d key rest with
      | none => none
      | some (vs, d) => some (v :: vs, d)

/-- The fields of a table on one line, after the fields `done`. -/
def enterFields? (d : Document) (done : List (Text × Toml)) :
    List (List Text × Written) → Option (List (Text × Toml) × Document)
  | [] => some (done, d)
  | (path, w) :: rest =>
    let key := path.getLastD []
    match d.descend? path.dropLast with
    | none => none
    | some inner =>
      match w.enter? inner key false with
      | none => none
      | some (v, inner) =>
        match inner.set? key (.ofToml v), putAt? v path done with
        | some inner, some done =>
          let isList := match v with
            | .list _ => true
            | _ => false
          enterFields? { inner.note key isList with context := d.context } done rest
        | _, _ => none

end

/-- The document after a statement. -/
def Document.step? (d : Document) : Statement → Option Document
  | .open_ key => (d.openTable? false key).map fun d => d.note [] false
  | .append key => (d.openTable? true key).map fun d => d.note [] false
  | .assign key w => (enterFields? d [] [(key, w)]).map (·.2)

/-- The document of some statements. -/
def Document.run? (d : Document) : List Statement → Option Document
  | [] => some d
  | s :: rest =>
    match d.step? s with
    | none => none
    | some d => run? d rest

/-- The table that a text stands for. -/
def parse? (t : Text) : Option Toml := do
  let d ← Document.run? {} (← statements? t)
  return (Entry.table d.root).toToml

end Bareword.Toml
