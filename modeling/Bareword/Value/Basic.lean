import Bareword.Pattern.Check
import Bareword.Program.Literal

/-! # Values

The values that programs compute with.

* `Value`: a value. Functions and builtins have an identity: two of them are equal only if they are
  the same one.
* `Value.display`: a value as text.
* `Value.equals`, `Value.isTruthy`: equality and truth of values.
* `Value.ofLiteral`: the value of a literal.
-/

namespace Bareword
set_option autoImplicit false

/-- The functions that are built in. -/
inductive Native where
  | echo
  | cat
  | length
  | upper
  | lower
  | join
  | type
  deriving DecidableEq, Repr

/-- A builtin under a name, with the names of the arguments that it accepts. -/
structure Builtin where
  id : Nat
  name : Text
  params : List Text := []
  /-- What it does; a builtin that comes from elsewhere does nothing known. -/
  native : Option Native := none
  deriving DecidableEq, Repr, Inhabited

/-- A function: where its body starts and the environment that it was made in. -/
structure Closure where
  id : Nat
  params : List Text
  entry : Int64
  env : Nat
  deriving DecidableEq, Repr, Inhabited

/-- A value. -/
inductive Value where
  | null
  | bool (b : Bool)
  | number (x : Float)
  | text (t : Text)
  | regex (pattern flags : Text)
  /-- A record, its fields sorted by name and each name there once. -/
  | record (fields : List (Text × Value))
  | closure (c : Closure)
  | builtin (b : Builtin)
  /-- What a place of the stack holds after its value was taken. -/
  | hole
  deriving Inhabited

namespace Value

def typeName : Value → Text
  | .null => "null"
  | .bool _ => "boolean"
  | .number _ => "number"
  | .text _ => "string"
  | .regex _ _ => "regex"
  | .record _ => "map"
  | .closure _ => "function"
  | .builtin _ => "builtin"
  | .hole => []

/-- Whether a value counts as true: all do but null and false. -/
def isTruthy : Value → Bool
  | .null => false
  | .bool b => b
  | _ => true

/-- Whether a value is no value. -/
def isHole : Value → Bool
  | .hole => true
  | _ => false

/-- A value as text. -/
def display : Value → Text
  | .null => "null"
  | .bool b => if b then "true" else "false"
  | .number x => Decimal.number x
  | .text t => t
  | .regex pattern flags => "//" ++ pattern ++ "//" ++ flags
  | .record fields => Text.byte '\x7b' :: Text.join ", " (displayFields fields) ++ [Text.byte '\x7d']
  | .closure c => "function(" ++ Text.join " " c.params ++ ")"
  | .builtin b => "builtin(" ++ b.name ++ ")"
  | .hole => []
where
  /-- The fields of a record as texts. -/
  displayFields : List (Text × Value) → List Text
    | [] => []
    | (name, value) :: rest => (name ++ ": " ++ value.display) :: displayFields rest

/-- A simple value as a listing shows it: strings are quoted. -/
def listing? : Value → Option Text
  | .text t => some (Text.quoted t)
  | v@(.null) | v@(.bool _) | v@(.number _) => some v.display
  | _ => none

def equals : Value → Value → Bool
  | .null, .null => true
  | .bool a, .bool b => a == b
  | .number x, .number y => x == y
  | .text s, .text t => s == t
  | .regex p f, .regex q g => p == q && f == g
  | .record fs, .record gs => equalFields fs gs
  | .closure c, .closure d => c.id == d.id
  | .builtin a, .builtin b => a.id == b.id
  | _, _ => false
where
  /-- Whether two records have the same names with equal values. -/
  equalFields : List (Text × Value) → List (Text × Value) → Bool
    | [], [] => true
    | (a, x) :: fs, (b, y) :: gs => a == b && x.equals y && equalFields fs gs
    | _, _ => false

/-- The values of several texts joined. -/
def joinAll (sep : Text) (values : List Value) : Text := Text.join sep (values.map display)

/-! ## Records -/

/-- Sets a field among fields that are sorted by name. -/
def setField (name : Text) (value : Value) : List (Text × Value) → List (Text × Value)
  | [] => [(name, value)]
  | (n, v) :: rest =>
    if n = name then (name, value) :: rest
    else if Text.before name n then (name, value) :: (n, v) :: rest
    else (n, v) :: setField name value rest

/-- The record of some fields; of two fields of one name the later one counts. -/
def ofFields (fields : List (Text × Value)) : Value :=
  .record (fields.foldl (fun r f => setField f.1 f.2 r) [])

/-- A field of a record; other values have none. -/
def field? (name : Text) : Value → Option Value
  | .record fields => fields.lookup name
  | _ => none

/-! ## Literals -/

/-- The value of a literal, or what is wrong with it. -/
def ofLiteral (l : Literal) : Except Text Value :=
  match l.kind with
  | .null => .ok .null
  | .boolean => .ok (.bool l.flag)
  | .number => .ok (.number l.number)
  | .string => .ok (.text l.text)
  | .regex =>
    match Pattern.check (Pattern.expression l.text l.flags) with
    | .error e => .error e.message
    | .ok () => .ok (.regex l.text l.flags)
  | .other code => .error ("unknown literal kind " ++ Text.ofNat code.toNat)

end Value
end Bareword
