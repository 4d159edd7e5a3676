import Bareword.Decimal.Format
import Bareword.Text.Basic

/-! # TOML values

The values of a TOML document. Dates and times are kept as messages show them, since nothing is
computed with them.

* `Toml`: a value.
* `Toml.shown`: a value as messages show it.
-/

namespace Bareword
set_option autoImplicit false

/-- A value of a TOML document. -/
inductive Toml where
  | flag (b : Bool)
  | text (t : Text)
  | integer (n : Int)
  | number (x : Float)
  /-- A date, a time or both, as it is shown. -/
  | moment (shown : Text)
  | list (items : List Toml)
  /-- A table; every key is there once. -/
  | table (fields : List (Text × Toml))
  deriving Inhabited

namespace Toml

/-- Puts a text with a key among others that are sorted by key. -/
def insertShown (key value : Text) : List (Text × Text) → List (Text × Text)
  | [] => [(key, value)]
  | (k, v) :: rest =>
    if Text.before key k then (key, value) :: (k, v) :: rest
    else (k, v) :: insertShown key value rest

/-- A value as messages show it: texts as they are, lists in brackets, tables in the order of their
keys. -/
def shown : Toml → Text
  | .flag b => if b then "true" else "false"
  | .text t => t
  | .integer n => Text.decimal n
  | .number x => Decimal.general x
  | .moment t => t
  | .list items => "[" ++ Text.join " " (shownItems items) ++ "]"
  | .table fields =>
    "map[" ++ Text.join " " ((shownFields fields).map fun (k, v) => k ++ ":" ++ v) ++ "]"
where
  /-- The items of a list. -/
  shownItems : List Toml → List Text
    | [] => []
    | v :: rest => v.shown :: shownItems rest
  /-- The fields of a table, sorted by key. -/
  shownFields : List (Text × Toml) → List (Text × Text)
    | [] => []
    | (k, v) :: rest => insertShown k v.shown (shownFields rest)

def setField (key : Text) (value : Toml) : List (Text × Toml) → List (Text × Toml)
  | [] => [(key, value)]
  | (k, v) :: rest =>
    if k = key then (key, value) :: rest else (k, v) :: setField key value rest

def fields? : Toml → Option (List (Text × Toml))
  | .table fields => some fields
  | _ => none

def text? : Toml → Option Text
  | .text t => some t
  | _ => none

def flag? : Toml → Option Bool
  | .flag b => some b
  | _ => none

def items? : Toml → Option (List Toml)
  | .list items => some items
  | _ => none

end Toml
end Bareword
