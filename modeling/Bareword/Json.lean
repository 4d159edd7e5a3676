import Bareword.Decimal.Format
import Bareword.Text.Rune

/-! # JSON

Values as indented JSON text. Fields are written in the order in which they are given.

* `Json`: a value.
* `Json.quoted`: a text between quotes.
* `Json.unwritable?`: a number that has no JSON form.
* `Json.render`: a value as text.
-/

namespace Bareword
set_option autoImplicit false

inductive Json where
  | null
  | bool (b : Bool)
  | integer (n : Int)
  | number (x : Float)
  | text (t : Text)
  | list (items : List Json)
  | object (fields : List (Text × Json))
  deriving Inhabited

namespace Json

/-! ## Fields -/

def field (name : Text) (v : Json) : List (Text × Json) := [(name, v)]

/-- A field with a text, left out when the text is empty. -/
def textField (name t : Text) : List (Text × Json) := if t.isEmpty then [] else field name (.text t)

/-- A field that is there only if it has a value. -/
def field? (name : Text) : Option Json → List (Text × Json)
  | none => []
  | some v => field name v

/-! ## Texts -/

/-- Whether a code point is written by its number: control characters, the signs that mean something
in markup, and the two separators that end lines elsewhere. -/
def isNumbered (c : Nat) : Bool :=
  c < 0x20 || c == '<'.toNat || c == '>'.toNat || c == '&'.toNat || c == 0x2028 || c == 0x2029

/-- The letter of a control character that has a short escape. -/
def shortEscape? (c : Nat) : Option Char :=
  if c = 8 then some 'b'
  else if c = 9 then some 't'
  else if c = 10 then some 'n'
  else if c = 12 then some 'f'
  else if c = 13 then some 'r'
  else none

/-- A rune as it stands between quotes. A byte that does not decode becomes the replacement
character. -/
def escapeRune (r : Rune) : Text :=
  if r.isInvalid then "\\ufffd"
  else if r.code = '"'.toNat ∨ r.code = '\\'.toNat then [Text.byte '\\', r.code.toUInt8]
  else
    match shortEscape? r.code with
    | some letter => [Text.byte '\\', Text.byte letter]
    | none => if isNumbered r.code then "\\u" ++ Text.hex 4 r.code else Text.encode r.code

def quoted (t : Text) : Text :=
  Text.byte '"' :: (Text.runes t).flatMap escapeRune ++ [Text.byte '"']

/-! ## Values -/

/-- The first number of a value that is not finite. -/
def unwritable? : Json → Option Float
  | .number x => if x.isFinite then none else some x
  | .list items => unwritableItems? items
  | .object fields => unwritableFields? fields
  | _ => none
where
  /-- The first number of some items that is not finite. -/
  unwritableItems? : List Json → Option Float
    | [] => none
    | v :: rest =>
      match v.unwritable? with
      | some x => some x
      | none => unwritableItems? rest
  /-- The first number of some fields that is not finite. -/
  unwritableFields? : List (Text × Json) → Option Float
    | [] => none
    | (_, v) :: rest =>
      match v.unwritable? with
      | some x => some x
      | none => unwritableFields? rest

def newline (depth : Nat) : Text := Text.byte '\n' :: Text.spaces (2 * depth)

/-- A value as text, at some depth. -/
def renderAt (depth : Nat) : Json → Text
  | .null => "null"
  | .bool b => if b then "true" else "false"
  | .integer n => Text.decimal n
  | .number x => Decimal.Layout.interchange.render x
  | .text t => quoted t
  | .list [] => "[]"
  | .list (v :: rest) =>
    "[" ++ newline (depth + 1) ++ v.renderAt (depth + 1) ++ renderItems depth rest ++
      newline depth ++ "]"
  | .object [] => "\x7b\x7d"
  | .object ((k, v) :: rest) =>
    "\x7b" ++ newline (depth + 1) ++ quoted k ++ ": " ++ v.renderAt (depth + 1) ++
      renderFields depth rest ++ newline depth ++ "\x7d"
where
  /-- The items after the first one. -/
  renderItems (depth : Nat) : List Json → Text
    | [] => []
    | v :: rest => "," ++ newline (depth + 1) ++ v.renderAt (depth + 1) ++ renderItems depth rest
  /-- The fields after the first one. -/
  renderFields (depth : Nat) : List (Text × Json) → Text
    | [] => []
    | (k, v) :: rest =>
      "," ++ newline (depth + 1) ++ quoted k ++ ": " ++ v.renderAt (depth + 1) ++
        renderFields depth rest

/-- A value as text, or what is wrong with it. -/
def render (v : Json) : Except Text Text :=
  match v.unwritable? with
  | some x => .error ("json: unsupported value: " ++ Decimal.general x)
  | none => .ok (v.renderAt 0)

end Json
end Bareword
