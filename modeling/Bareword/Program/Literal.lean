import Bareword.Decimal.Format
import Bareword.Text.Quoted

/-! # Literals

The values that instructions push. A literal has a kind and room for the data of every kind; a
literal that comes from outside may hold data that its kind does not use.

* `Literal.ofBool`, `Literal.ofNumber`, `Literal.ofText`, `Literal.ofRegex`: literals by kind.
* `Literal.display`, `Literal.listing`: a literal as text, plain and as in a listing.
-/

namespace Bareword
set_option autoImplicit false

inductive LiteralKind where
  | null
  | boolean
  | number
  | string
  | regex
  /-- A number that stands for no kind. -/
  | other (code : UInt8)
  deriving DecidableEq, Repr, Inhabited

namespace LiteralKind

def code : LiteralKind → UInt8
  | .null => 0
  | .boolean => 1
  | .number => 2
  | .string => 3
  | .regex => 4
  | .other c => c

def ofCode (c : UInt8) : LiteralKind :=
  if c = 0 then .null
  else if c = 1 then .boolean
  else if c = 2 then .number
  else if c = 3 then .string
  else if c = 4 then .regex
  else .other c

def name : LiteralKind → String
  | .null => "null"
  | .boolean => "boolean"
  | .number => "number"
  | .string => "string"
  | .regex => "regex"
  | .other _ => "unknown"

end LiteralKind

/-- A literal. A regular expression has its pattern in `text`. -/
structure Literal where
  kind : LiteralKind := .null
  flag : Bool := false
  number : Float := 0
  text : Text := []
  flags : Text := []
  deriving BEq, Inhabited

namespace Literal

def null : Literal := {}

def ofBool (b : Bool) : Literal := { kind := .boolean, flag := b }

def ofNumber (x : Float) : Literal := { kind := .number, number := x }

/-- A count of things. -/
def ofNat (n : Nat) : Literal := ofNumber (Binary.ofInt n)

def ofText (t : Text) : Literal := { kind := .string, text := t }

/-- A regular expression with its flags. -/
def ofRegex (pattern flags : Text) : Literal := { kind := .regex, text := pattern, flags }

/-- A literal as string concatenation shows it. -/
def display (l : Literal) : Text :=
  match l.kind with
  | .boolean => if l.flag then "true" else "false"
  | .number => Decimal.number l.number
  | .string => l.text
  | .regex => "//" ++ l.text ++ "//" ++ l.flags
  | .null | .other _ => "null"

/-- A literal as a listing shows it: strings are quoted. -/
def listing (l : Literal) : Text :=
  match l.kind with
  | .string => Text.quoted l.text
  | _ => l.display

/-- Whether a literal counts as true: all do but null and false. -/
def isTruthy (l : Literal) : Bool :=
  match l.kind with
  | .null => false
  | .boolean => l.flag
  | _ => true

end Literal
end Bareword
