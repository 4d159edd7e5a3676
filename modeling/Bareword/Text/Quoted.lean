import Bareword.Text.Printable
import Bareword.Text.Rune

/-! # Quoted text

A text between quotes, with escapes for the quote, the backslash, control characters, characters
that are not printable and bytes that do not decode.

* `Text.quoted`: a text between double quotes.
* `Text.quotedRune`: one rune between single quotes.
-/

namespace Bareword.Text
set_option autoImplicit false

/-- The letter of a control character that has an escape of its own. -/
def controlLetter? (c : Nat) : Option Char :=
  if c = 7 then some 'a'
  else if c = 8 then some 'b'
  else if c = 12 then some 'f'
  else if c = 10 then some 'n'
  else if c = 13 then some 'r'
  else if c = 9 then some 't'
  else if c = 11 then some 'v'
  else none

/-- A code point as it stands between the quotes `quote`. -/
def escapeCode (quote : Char) (c : Nat) : Text :=
  if c = quote.toNat ∨ c = '\\'.toNat then [byte '\\', c.toUInt8]
  else if isPrintable c then encode c
  else
    match controlLetter? c with
    | some letter => [byte '\\', byte letter]
    | none =>
      if c < 0x20 ∨ c = 0x7F then "\\x" ++ hex 2 c
      else if ¬ isScalar c then "\\ufffd"
      else if c < 0x10000 then "\\u" ++ hex 4 c
      else "\\U" ++ hex 8 c

/-- What stands between the quotes for a text. A byte that does not decode is written by its
value. -/
def escaped (quote : Char) (s : Text) : Text :=
  match h : s.next? with
  | none => []
  | some (r, rest) =>
    have := length_lt_of_next? h
    (if r.isInvalid then "\\x" ++ hex 2 (s.headD 0).toNat else escapeCode quote r.code) ++
      escaped quote rest
termination_by s.length

/-- A text between double quotes. -/
def quoted (s : Text) : Text := byte '"' :: escaped '"' s ++ [byte '"']

/-- A code point between single quotes. -/
def quotedRune (c : Nat) : Text := byte '\'' :: escapeCode '\'' c ++ [byte '\'']

end Bareword.Text
