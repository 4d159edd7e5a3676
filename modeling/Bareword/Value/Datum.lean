import Bareword.Value.Basic

/-! # Data from outside

Values that a program is given, and the values that they become.

* `Datum`: data from outside, some of which has no value.
* `Value.ofDatum`: the value of a datum.
* `Value.ofGlobals`: the values of global variables.
-/

namespace Bareword
set_option autoImplicit false

/-- Data from outside. -/
inductive Datum where
  | null
  | bool (b : Bool)
  | number (x : Float)
  | text (t : Text)
  | record (fields : List (Text × Datum))
  | list
  /-- A function from outside. -/
  | function (id : Nat)
  /-- Data of a type that has no values, by the name of the type. -/
  | foreign (typeName : Text)
  /-- A value that is handed over as it is. -/
  | object (v : Value)
  deriving Inhabited

/-- The name of the type of lists in messages. -/
def Datum.listType : Text := "[]interface \x7b\x7d"

/-- The name of a function from outside that is a field of a record. -/
def Datum.functionName : Text := "native"

namespace Value

/-- The value of a datum, or what is wrong with it. -/
def ofDatum : Datum → Except Text Value
  | .null => .ok .null
  | .bool b => .ok (.bool b)
  | .number x => .ok (.number x)
  | .text t => .ok (.text t)
  | .record fields => (ofData fields).map ofFields
  | .list => .error ("unsupported type " ++ Datum.listType)
  | .function id => .ok (.builtin { id, name := Datum.functionName })
  | .foreign name => .error ("unsupported type " ++ name)
  | .object v => .ok (if v.isHole then .null else v)
where
  /-- The values of fields. -/
  ofData : List (Text × Datum) → Except Text (List (Text × Value))
    | [] => .ok []
    | (name, d) :: rest =>
      match ofDatum d with
      | .error e => .error ("field " ++ Text.quoted name ++ ": " ++ e)
      | .ok v => (ofData rest).map ((name, v) :: ·)

/-- The value of a global variable, or what is wrong with it. A function from outside is named after
the variable. -/
def ofGlobal (name : Text) : Datum → Except Text Value
  | .function id => .ok (.builtin { id, name })
  | d => ofDatum d

/-- The values of global variables, or what is wrong with the first that has none. -/
def ofGlobals : List (Text × Datum) → Except Text (List (Text × Value))
  | [] => .ok []
  | (name, d) :: rest =>
    match ofGlobal name d with
    | .error e =>
      .error ("invalid global provided: global " ++ Text.quoted name ++ ": " ++ e)
    | .ok v => (ofGlobals rest).map ((name, v) :: ·)

end Value
end Bareword
