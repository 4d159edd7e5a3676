import Bareword.Text.Basic

/-! # Runes

Reading a text as UTF-8, one rune at a time. A byte that starts no valid encoding is read as the
replacement rune of width one, so every text can be walked to its end.

* `Text.next?`: the first rune of a text and what follows it.
* `Text.runes`, `Text.runeCount`: the runes of a text and their number.
* `Text.encode`: the bytes of a rune.
* `Text.isValid`: whether every byte belongs to a valid encoding.
-/

namespace Bareword
set_option autoImplicit false

/-- One decoded rune: its code point and the number of bytes it was read from. -/
structure Rune where
  code : Nat
  width : Nat
  deriving DecidableEq, Repr

namespace Rune

/-- The code point that stands for a byte that is no part of a valid encoding. -/
def replacement : Nat := 0xFFFD

/-- The rune read at a byte that starts no valid encoding. -/
def invalid : Rune := ⟨replacement, 1⟩

/-- Whether the rune was read from a byte that starts no valid encoding. -/
def isInvalid (r : Rune) : Bool := r.code == replacement && r.width == 1

end Rune

namespace Text

def isContinuation (b : UInt8) : Bool := 0x80 ≤ b && b ≤ 0xBF

/-- The six payload bits of a continuation byte. -/
def payload (b : UInt8) : Nat := b.toNat % 64

/-- The rune that starts with byte `b` and goes on with `rest`. The second byte is held to the range
that excludes overlong forms, surrogates and code points past the last one. -/
def decode (b : UInt8) (rest : Text) : Rune :=
  if b < 0x80 then ⟨b.toNat, 1⟩
  else if 0xC2 ≤ b ∧ b ≤ 0xDF then
    match rest with
    | c :: _ => if isContinuation c then ⟨(b.toNat % 32) * 64 + payload c, 2⟩ else .invalid
    | [] => .invalid
  else if 0xE0 ≤ b ∧ b ≤ 0xEF then
    match rest with
    | c :: d :: _ =>
      if isContinuation c && isContinuation d && (b != 0xE0 || 0xA0 ≤ c) && (b != 0xED || c ≤ 0x9F)
      then ⟨((b.toNat % 16) * 64 + payload c) * 64 + payload d, 3⟩
      else .invalid
    | _ => .invalid
  else if 0xF0 ≤ b ∧ b ≤ 0xF4 then
    match rest with
    | c :: d :: e :: _ =>
      if isContinuation c && isContinuation d && isContinuation e &&
        (b != 0xF0 || 0x90 ≤ c) && (b != 0xF4 || c ≤ 0x8F)
      then ⟨(((b.toNat % 8) * 64 + payload c) * 64 + payload d) * 64 + payload e, 4⟩
      else .invalid
    | _ => .invalid
  else .invalid

/-- The first rune of a text and the text after it. -/
def next? : Text → Option (Rune × Text)
  | [] => none
  | b :: rest =>
    let r := decode b rest
    some (r, (b :: rest).drop r.width)

theorem decode_width_pos (b : UInt8) (rest : Text) : 0 < (decode b rest).width := by
  unfold decode Rune.invalid
  repeat' split
  all_goals simp

theorem length_lt_of_next? {s rest : Text} {r : Rune} (h : s.next? = some (r, rest)) :
    rest.length < s.length := by
  cases s with
  | nil => simp [next?] at h
  | cons b tail =>
    simp only [next?, Option.some.injEq, Prod.mk.injEq] at h
    obtain ⟨hr, hrest⟩ := h
    have hw := decode_width_pos b tail
    rw [← hrest, List.length_drop]
    simp only [List.length_cons]
    omega

def runes (s : Text) : List Rune :=
  match h : s.next? with
  | none => []
  | some (r, rest) =>
    have := length_lt_of_next? h
    r :: runes rest
termination_by s.length

def runeCount (s : Text) : Nat := s.runes.length

/-- Whether every byte belongs to a valid encoding. -/
def isValid (s : Text) : Bool := s.runes.all fun r => !r.isInvalid

/-- Whether a code point has an encoding. -/
def isScalar (code : Nat) : Bool := code < 0xD800 || (0xDFFF < code && code ≤ 0x10FFFF)

/-- The bytes of a code point; one without an encoding is written as the replacement rune. -/
def encode (code : Nat) : Text :=
  if ¬ isScalar code then [0xEF, 0xBF, 0xBD]
  else if code < 0x80 then [code.toUInt8]
  else if code < 0x800 then [(0xC0 + code / 64).toUInt8, (0x80 + code % 64).toUInt8]
  else if code < 0x10000 then
    [(0xE0 + code / 4096).toUInt8, (0x80 + code / 64 % 64).toUInt8, (0x80 + code % 64).toUInt8]
  else
    [(0xF0 + code / 262144).toUInt8, (0x80 + code / 4096 % 64).toUInt8,
      (0x80 + code / 64 % 64).toUInt8, (0x80 + code % 64).toUInt8]

/-- Applies a map of code points to every rune; bytes that do not decode become the replacement
rune. -/
def mapRunes (f : Nat → Nat) (s : Text) : Text := s.runes.flatMap fun r => encode (f r.code)

/-- The string with these bytes, if they are valid UTF-8. -/
def toString? (s : Text) : Option String :=
  if s.isValid then some (String.ofList (s.runes.map fun r => Char.ofNat r.code)) else none

end Text
end Bareword
