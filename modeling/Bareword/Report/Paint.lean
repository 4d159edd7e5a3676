import Bareword.Text.Basic

/-! # Terminal colours

Text between the escape sequences that switch terminal attributes on and off.
-/

namespace Bareword.Report
set_option autoImplicit false

/-- A terminal attribute. -/
inductive Attribute where
  | bold
  | faint
  | red
  | green
  | yellow
  | magenta
  | cyan
  | white
  | brightBlack
  | brightRed
  | brightYellow
  | brightBlue
  | brightCyan
  deriving DecidableEq, Repr

namespace Attribute

/-- The number that switches an attribute on. -/
def on : Attribute → Nat
  | .bold => 1
  | .faint => 2
  | .red => 31
  | .green => 32
  | .yellow => 33
  | .magenta => 35
  | .cyan => 36
  | .white => 37
  | .brightBlack => 90
  | .brightRed => 91
  | .brightYellow => 93
  | .brightBlue => 94
  | .brightCyan => 96

/-- The number that switches an attribute off. -/
def off : Attribute → Nat
  | .bold | .faint => 22
  | _ => 0

end Attribute

def escapeSequence (codes : List Nat) : Text :=
  "\x1b[" ++ Text.join ";" (codes.map Text.ofNat) ++ "m"

/-- A text with attributes, or as it is when colour is off. -/
def paint (color : Bool) (attributes : List Attribute) (t : Text) : Text :=
  if color then
    escapeSequence (attributes.map (·.on)) ++ t ++ escapeSequence (attributes.map (·.off))
  else t

end Bareword.Report
