import Bareword.Text.Rune

/-! # Classes of characters

What may stand in a bare word, in a name, and in a name interpolated into a string. All classes
are over code points.
-/

namespace Bareword.Token
set_option autoImplicit false

/-- Blanks, line ends and a closing parenthesis end a bare word; all else may be part of one. -/
def isWordChar (c : Nat) : Bool :=
  !(c == ' '.toNat || c == '\t'.toNat || c == '\r'.toNat || c == '\n'.toNat || c == ')'.toNat)

def isLower (c : Nat) : Bool := 'a'.toNat ≤ c && c ≤ 'z'.toNat

def isUpper (c : Nat) : Bool := 'A'.toNat ≤ c && c ≤ 'Z'.toNat

def isDigit (c : Nat) : Bool := '0'.toNat ≤ c && c ≤ '9'.toNat

/-- The ranges of pictographs that names may use. -/
def pictographRanges : List (Nat × Nat) :=
  [(0x1F600, 0x1F64F), (0x1F300, 0x1F5FF), (0x1F680, 0x1F6FF), (0x1F1E6, 0x1F1FF),
    (0x2600, 0x26FF), (0x2700, 0x27BF), (0x1F900, 0x1F9FF), (0x1FA70, 0x1FAFF),
    (0x1F018, 0x1F270), (0xFE00, 0xFE0F), (0x238C, 0x2454), (0x20D0, 0x20FF)]

/-- A pictograph or one of the marks that modify it. -/
def isPictograph (c : Nat) : Bool := pictographRanges.any fun (lo, hi) => lo ≤ c && c ≤ hi

def isNameStart (c : Nat) : Bool := isLower c || isPictograph c

def isNameChar (c : Nat) : Bool := isLower c || isDigit c || c == '-'.toNat || isPictograph c

/-- A character that may start an interpolated name; these may name values of the host. -/
def isInterpStart (c : Nat) : Bool := isNameStart c || isUpper c || c == '_'.toNat

/-- A character that may stand in an interpolated name. -/
def isInterpChar (c : Nat) : Bool := isInterpStart c || isDigit c

/-- A character that may start an infix operator. A minus sign may not, as names contain it. -/
def isOperatorChar (c : Nat) : Bool :=
  c == '+'.toNat || c == '*'.toNat || c == '/'.toNat || c == '<'.toNat || c == '>'.toNat ||
    c == '!'.toNat || c == '='.toNat

/-- Semicolons and colons belong to a word only when more of the word follows. -/
def isSeparatorChar (c : Nat) : Bool := c == ';'.toNat || c == ':'.toNat

/-- Whether a text goes on with a character of a bare word. -/
def startsWord (s : Text) : Bool :=
  match s.next? with
  | none => false
  | some (r, _) => isWordChar r.code

/-- Whether the text as a whole is a name. -/
def isName (s : Text) : Bool :=
  match s.runes with
  | [] => false
  | r :: rs => isNameStart r.code && isNameChar r.code && rs.all fun r => isNameChar r.code

end Bareword.Token
