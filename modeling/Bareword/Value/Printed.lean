import Bareword.Json
import Bareword.Value.Basic

/-! # Results

Values as they are printed when a program ends.

* `Value.printed`: a value as plain text.
* `Value.toJson`: a value as JSON.
-/

namespace Bareword.Value
set_option autoImplicit false

/-- A value as plain text. -/
def printed : Value → Text
  | .null | .hole => "<nil>"
  | .bool b => if b then "true" else "false"
  | .number x => Decimal.general x
  | .text t => t
  | .regex pattern flags => Pattern.expression pattern flags
  | .record fields => "map[" ++ Text.join " " (printedFields fields) ++ "]"
  | v@(.closure _) | v@(.builtin _) => v.display
where
  /-- The fields of a record as plain texts. -/
  printedFields : List (Text × Value) → List Text
    | [] => []
    | (name, value) :: rest => (name ++ ":" ++ value.printed) :: printedFields rest

/-- A value as JSON. -/
def toJson : Value → Json
  | .null | .hole => .null
  | .bool b => .bool b
  | .number x => .number x
  | .text t => .text t
  | .regex pattern flags => .text (Pattern.expression pattern flags)
  | .record fields => .object (jsonFields fields)
  | v@(.closure _) | v@(.builtin _) => .text v.display
where
  /-- The fields of a record as JSON. -/
  jsonFields : List (Text × Value) → List (Text × Json)
    | [] => []
    | (name, value) :: rest => (name, value.toJson) :: jsonFields rest

end Bareword.Value
