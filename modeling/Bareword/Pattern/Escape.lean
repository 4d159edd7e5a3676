import Bareword.Pattern.CharSet

/-! # Escapes in patterns

Faults of patterns, and the reading of single characters, which may be escaped.

* `Pattern.Fault`: what is wrong with a pattern, with the part that shows it.
* `Pattern.refuse`: the failure at a part of a pattern.
* `Pattern.rune`: one character.
* `Pattern.escape`: one escaped character.
-/

namespace Bareword.Pattern
set_option autoImplicit false

/-- What can be wrong with a pattern. -/
inductive Reason where
  | badRange
  | badEscape
  | badGroupName
  | badGroup
  | nestedRepeat
  | badRepeatCount
  | badEncoding
  | missingBracket
  | missingParen
  | missingOperand
  | trailingBackslash
  | unexpectedParen
  | tooDeep
  | tooLarge
  deriving DecidableEq, Repr

def Reason.message : Reason → String
  | .badRange => "invalid character class range"
  | .badEscape => "invalid escape sequence"
  | .badGroupName => "invalid named capture"
  | .badGroup => "invalid or unsupported Perl syntax"
  | .nestedRepeat => "invalid nested repetition operator"
  | .badRepeatCount => "invalid repeat count"
  | .badEncoding => "invalid UTF-8"
  | .missingBracket => "missing closing ]"
  | .missingParen => "missing closing )"
  | .missingOperand => "missing argument to repetition operator"
  | .trailingBackslash => "trailing backslash at end of expression"
  | .unexpectedParen => "unexpected )"
  | .tooDeep => "expression nests too deeply"
  | .tooLarge => "expression too large"

/-- A reason with the part of the pattern that shows it. -/
structure Fault where
  reason : Reason
  fragment : Text
  deriving DecidableEq, Repr

def Fault.message (f : Fault) : Text :=
  "error parsing regexp: " ++ Text.ofString f.reason.message ++ ": \x60" ++ f.fragment ++ "\x60"

/-- The part of `s` in front of its tail `rest`. -/
def front (s rest : Text) : Text := s.take (s.length - rest.length)

/-- Fails with the part of `s` in front of its tail `rest`. -/
def refuse {α : Type} (reason : Reason) (s rest : Text) : Except Fault α :=
  .error ⟨reason, front s rest⟩

/-- The first character of a pattern. At the end there is the replacement rune. -/
def rune (s : Text) : Except Fault (Nat × Text) :=
  match s.next? with
  | none => .ok (Rune.replacement, [])
  | some (r, rest) => if r.isInvalid then .error ⟨.badEncoding, s⟩ else .ok (r.code, rest)

/-- Fails at the first byte that does not decode. The fuel bounds the number of characters. -/
def checkEncoding (s : Text) : Except Fault Unit :=
  match h : s.next? with
  | none => .ok ()
  | some (r, rest) =>
    have := Text.length_lt_of_next? h
    if r.isInvalid then .error ⟨.badEncoding, s⟩ else checkEncoding rest
termination_by s.length

def isAlphanumeric (c : Nat) : Bool :=
  (48 ≤ c && c ≤ 57) || (65 ≤ c && c ≤ 90) || (97 ≤ c && c ≤ 122)

def isOctal (b : UInt8) : Bool := Text.byte '0' ≤ b && b ≤ Text.byte '7'

def hexValue? (c : Nat) : Option Nat := if c < 128 then Text.hexDigit? c.toUInt8 else none

/-- The digits between braces after `\x`; `s` is the whole escape. -/
def bracedHex (s : Text) : Nat → Nat → Nat → Text → Except Fault (Nat × Text)
  | 0, _, _, t => refuse .badEscape s t
  | fuel + 1, value, digits, t =>
    if t.isEmpty then .error ⟨.badEscape, s⟩
    else do
      let (c, t) ← rune t
      if c = '}'.toNat then
        if digits = 0 then refuse .badEscape s t else .ok (value, t)
      else
        match hexValue? c with
        | none => refuse .badEscape s t
        | some d =>
          if value * 16 + d > maxCode then refuse .badEscape s t
          else bracedHex s fuel (value * 16 + d) (digits + 1) t

/-- The character that an escape stands for when it is that of a control character. -/
def controlCode? (c : Nat) : Option Nat :=
  if c = 'a'.toNat then some 7
  else if c = 'f'.toNat then some 12
  else if c = 'n'.toNat then some 10
  else if c = 'r'.toNat then some 13
  else if c = 't'.toNat then some 9
  else if c = 'v'.toNat then some 11
  else none

/-- One escaped character, from its backslash on. -/
def escape (s : Text) : Except Fault (Nat × Text) :=
  let t := s.drop 1
  if t.isEmpty then .error ⟨.trailingBackslash, []⟩
  else do
    let (c, t) ← rune t
    if '0'.toNat ≤ c ∧ c ≤ '7'.toNat then
      if c ≠ '0'.toNat ∧ ¬ (t.headD 0 |> isOctal) then refuse .badEscape s t
      else
        let digits := (t.take 2).takeWhile isOctal
        .ok (digits.foldl (fun acc b => acc * 8 + (b.toNat - 48)) (c - 48), t.drop digits.length)
    else if c = 'x'.toNat then
      if t.isEmpty then refuse .badEscape s t
      else
        let (a, t) ← rune t
        if a = '\x7b'.toNat then bracedHex s (t.length + 1) 0 0 t
        else
          let (b, t) ← rune t
          match hexValue? a, hexValue? b with
          | some x, some y => .ok (x * 16 + y, t)
          | _, _ => refuse .badEscape s t
    else
      match controlCode? c with
      | some code => .ok (code, t)
      | none => if c < 128 ∧ ¬ isAlphanumeric c then .ok (c, t) else refuse .badEscape s t

end Bareword.Pattern
