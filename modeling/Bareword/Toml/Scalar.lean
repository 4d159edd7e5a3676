import Bareword.Decimal.Read
import Bareword.Text.Rune
import Bareword.Toml.Basic
import Bareword.Toml.Moment

/-! # Texts and numbers in TOML

Reading the texts, numbers and moments that stand in a TOML document. Every reader answers what it
read and what follows.

* `Toml.basicText?`, `Toml.literalText?`: texts on one line, with escapes and without.
* `Toml.longBasicText?`, `Toml.longLiteralText?`: texts that may run over several lines.
* `Toml.numeral?`: numbers and moments.
-/

namespace Bareword.Toml
set_option autoImplicit false
-- Powers are those of the core library, whatever instances are imported later.
attribute [local instance (high)] instPowNat

/-- Whether a byte is a space or a tab. -/
def isBlank (b : UInt8) : Bool := b == Text.byte ' ' || b == Text.byte '\t'

/-- Whether a byte ends a line, alone or with the next one. -/
def isLineEnd (b : UInt8) : Bool := b == Text.byte '\n' || b == Text.byte '\r'

/-- Whether a byte is a blank or ends a line. -/
def isGap (b : UInt8) : Bool := isBlank b || isLineEnd b

/-! ## Escapes -/

/-- What a letter after a backslash stands for. -/
def simpleEscape? (b : UInt8) : Option UInt8 :=
  if b = Text.byte 'b' then some 8
  else if b = Text.byte 't' then some 9
  else if b = Text.byte 'n' then some 10
  else if b = Text.byte 'f' then some 12
  else if b = Text.byte 'r' then some 13
  else if b = Text.byte '"' then some b
  else if b = Text.byte '\\' then some b
  else none

/-- The value of hexadecimal digits. -/
def hexValue? : Nat → Text → Option Nat
  | acc, [] => some acc
  | acc, b :: t => (Text.hexDigit? b).bind fun d => hexValue? (acc * 16 + d) t

/-- The bytes of the code point that `n` hexadecimal digits stand for. -/
def codeEscape? (n : Nat) (t : Text) : Option (Text × Text) :=
  if t.length < n then none
  else
    match hexValue? 0 (t.take n) with
    | none => none
    | some code => if Text.isScalar code then some (Text.encode code, t.drop n) else none

/-- What an escape stands for, read after its backslash. -/
def escape? : Text → Option (Text × Text)
  | [] => none
  | b :: t =>
    if b = Text.byte 'u' then codeEscape? 4 t
    else if b = Text.byte 'U' then codeEscape? 8 t
    else
      match simpleEscape? b with
      | none => none
      | some c => some ([c], t)

theorem length_le_of_codeEscape? {n : Nat} {t u rest : Text} (h : codeEscape? n t = some (u, rest)) :
    rest.length ≤ t.length := by
  unfold codeEscape? at h
  repeat' split at h
  all_goals simp_all
  obtain ⟨-, rfl⟩ := h
  simp

theorem length_lt_of_escape? {t u rest : Text} (h : escape? t = some (u, rest)) :
    rest.length < t.length := by
  cases t with
  | nil => simp [escape?] at h
  | cons b t =>
    rw [escape?] at h
    simp only [List.length_cons]
    repeat' split at h
    · exact Nat.lt_succ_of_le (length_le_of_codeEscape? h)
    · exact Nat.lt_succ_of_le (length_le_of_codeEscape? h)
    · cases h
    · cases h
      exact Nat.lt_succ_self _

/-! ## Texts -/

/-- A text with escapes, read after its quote. -/
def basicText? (t : Text) : Option (Text × Text) :=
  match t with
  | [] => none
  | b :: rest =>
    if b = Text.byte '"' then some ([], rest)
    else if isLineEnd b then none
    else if b = Text.byte '\\' then
      match h : escape? rest with
      | none => none
      | some (u, rest') =>
        have : rest'.length < (b :: rest).length := Nat.lt_succ_of_lt (length_lt_of_escape? h)
        (basicText? rest').map fun (v, end_) => (u ++ v, end_)
    else (basicText? rest).map fun (v, end_) => (b :: v, end_)
termination_by t.length
decreasing_by
  all_goals
    simp only [List.length_cons] at *
    omega

/-- A text without escapes, read after its quote. -/
def literalText? : Text → Option (Text × Text)
  | [] => none
  | b :: rest =>
    if b = Text.byte '\'' then some ([], rest)
    else if isLineEnd b then none
    else (literalText? rest).map fun (v, end_) => (b :: v, end_)

/-- What a run of quotes in a long text does: fewer than three belong to the text, and three end it.
Up to `most` may stand at the end, of which the last three are the end. -/
inductive QuoteRun where
  | inside
  | ending (before : Nat)
  | tooLong

/-- What a run of `n` quotes does. -/
def QuoteRun.of (most n : Nat) : QuoteRun :=
  if n < 3 then .inside else if n ≤ most then .ending (n - 3) else .tooLong

/-- A long text without escapes. -/
def longLiteralText? (t : Text) : Option (Text × Text) :=
  match t with
  | [] => none
  | b :: rest =>
    if b = Text.byte '\'' then
      let quotes := rest.takeWhile (· == Text.byte '\'')
      match QuoteRun.of 5 (quotes.length + 1) with
      | .ending n => some (List.replicate n (Text.byte '\''), rest.drop quotes.length)
      | .tooLong => none
      | .inside => (longLiteralText? rest).map fun (v, end_) => (b :: v, end_)
    else (longLiteralText? rest).map fun (v, end_) => (b :: v, end_)

/-- A long text with escapes. A backslash at the end of a line takes the blanks and the line ends
after it away. After an escaped backslash one more quote may stand at the end. -/
def longBasicText? (afterBackslash : Bool) (t : Text) : Option (Text × Text) :=
  match t with
  | [] => none
  | b :: rest =>
    if b = Text.byte '"' then
      let quotes := rest.takeWhile (· == Text.byte '"')
      match QuoteRun.of (if afterBackslash then 6 else 5) (quotes.length + 1) with
      | .ending n => some (List.replicate n (Text.byte '"'), rest.drop quotes.length)
      | .tooLong => none
      | .inside => (longBasicText? false rest).map fun (v, end_) => (b :: v, end_)
    else if b = Text.byte '\\' then
      if (rest.takeWhile isGap).any (· == Text.byte '\n') then
        have : (rest.dropWhile isGap).length < (b :: rest).length :=
          Nat.lt_succ_of_le (List.dropWhile_suffix isGap).length_le
        longBasicText? false (rest.dropWhile isGap)
      else
        match h : escape? rest with
        | none => none
        | some (u, rest') =>
          have : rest'.length < (b :: rest).length := Nat.lt_succ_of_lt (length_lt_of_escape? h)
          (longBasicText? (rest.head? == some (Text.byte '\\')) rest').map fun (v, end_) =>
            (u ++ v, end_)
    else (longBasicText? false rest).map fun (v, end_) => (b :: v, end_)
termination_by t.length
decreasing_by
  all_goals
    simp only [List.length_cons] at *
    omega

/-- A text without the line end at its front. -/
def dropFirstLineEnd : Text → Text
  | 0x0A :: t => t
  | 0x0D :: 0x0A :: t => t
  | t => t

/-- A text of any kind, read from its first quote on. -/
def anyText? (t : Text) : Option (Text × Text) :=
  if ("\"\"\"" : Text).isPrefixOf t then longBasicText? false (dropFirstLineEnd (t.drop 3))
  else if ("'''" : Text).isPrefixOf t then longLiteralText? (dropFirstLineEnd (t.drop 3))
  else if ("\"" : Text).isPrefixOf t then basicText? (t.drop 1)
  else if ("'" : Text).isPrefixOf t then literalText? (t.drop 1)
  else none

/-! ## Numbers -/

/-- Whether underscores stand only after hexadecimal digits, and a digit is last. -/
def underscoresFit : Bool → Text → Bool
  | afterDigit, [] => afterDigit
  | afterDigit, b :: t =>
    if b = Text.byte '_' ∧ ¬ afterDigit then false
    else underscoresFit (Text.hexDigit? b).isSome t

/-- A text without underscores. -/
def dropUnderscores (t : Text) : Text := t.filter (· != Text.byte '_')

/-- Whether a number starts with a zero that it could do without. -/
def hasLeadingZero : Text → Bool
  | a :: b :: rest =>
    if a = Text.byte '0' then !(b == Text.byte 'b' || b == Text.byte 'o' || b == Text.byte 'x')
    else (a == Text.byte '+' || a == Text.byte '-') && b == Text.byte '0' && !rest.isEmpty
  | _ => false

def digitsValue? (base : Nat) : Nat → Text → Option Nat
  | acc, [] => some acc
  | acc, b :: t =>
    match Text.hexDigit? b with
    | none => none
    | some d => if d < base then digitsValue? base (acc * base + d) t else none

/-- An integer of sixty four bits, with a sign or a mark for its base. -/
def integer? (t : Text) : Option Int := do
  guard (underscoresFit false t ∧ ¬ hasLeadingZero t)
  let t := dropUnderscores t
  let value : Int ←
    match t with
    | 0x30 :: 0x78 :: digits => (digitsValue? 16 0 digits).map Int.ofNat
    | 0x30 :: 0x6F :: digits => (digitsValue? 8 0 digits).map Int.ofNat
    | 0x30 :: 0x62 :: digits => (digitsValue? 2 0 digits).map Int.ofNat
    | 0x2D :: digits => (digitsValue? 10 0 digits).map fun n => -(n : Int)
    | 0x2B :: digits => (digitsValue? 10 0 digits).map Int.ofNat
    | digits => (digitsValue? 10 0 digits).map Int.ofNat
  guard (-(2 ^ (63 : Nat) : Int) ≤ value ∧ value < (2 ^ (63 : Nat) : Int))
  return value

/-- Whether a digit follows every point. -/
def pointsFit : Text → Bool
  | [] => true
  | b :: t => (b != Text.byte '.' || t.head?.any Text.isDigit) && pointsFit t

/-- Whether a byte divides the parts of a number: a point, or the mark of an exponent. -/
def dividesNumber (b : UInt8) : Bool :=
  b == Text.byte '.' || b == Text.byte 'e' || b == Text.byte 'E'

/-- A number with a fraction or an exponent. One that is too large is none. -/
def fractional? (t : Text) : Option Float := do
  let parts := (Text.splitOn (Text.byte '.')
    (t.map fun b => if dividesNumber b then Text.byte '.' else b)).filter fun p => !p.isEmpty
  guard (parts.all (underscoresFit false) ∧ ¬ hasLeadingZero (parts.headD []) ∧ pointsFit t)
  match Decimal.read (dropUnderscores t) with
  | .exact x => return x
  | .overflow _ | .malformed => none

/-- A number or a moment that starts with a sign or a digit. What follows the first digits tells
which characters belong to it. -/
def numeral? (t : Text) : Option (Toml × Text) :=
  let (sign, body) : Text × Text :=
    match t with
    | b :: rest => if b = Text.byte '+' ∨ b = Text.byte '-' then ([b], rest) else ([], t)
    | [] => ([], [])
  let isUnsigned := sign.isEmpty
  let fractionalByte (b : UInt8) : Bool :=
    Text.isDigit b || dividesNumber b || b == Text.byte '_' || b == Text.byte '-' ||
      b == Text.byte '+'
  let momentByte (b : UInt8) : Bool :=
    Text.isDigit b || (Text.ofString "-:Tt .Zz+").contains b
  let based (base : Nat) : Option (Toml × Text) :=
    let digits := body.drop 2
    let token := digits.takeWhile fun b =>
      b == Text.byte '_' || (Text.hexDigit? b).any (· < base)
    if token.head?.isNone ∨ token.head? = some (Text.byte '_') then none
    else (integer? (body.take 2 ++ token)).map fun n => (.integer n, digits.drop token.length)
  if ¬ body.head?.any Text.isDigit then none
  else if ("0x" : Text).isPrefixOf body then if isUnsigned then based 16 else none
  else if ("0o" : Text).isPrefixOf body then if isUnsigned then based 8 else none
  else if ("0b" : Text).isPrefixOf body then if isUnsigned then based 2 else none
  else
    let digits := body.takeWhile Text.isDigit
    let next := body[digits.length]?
    if isUnsigned ∧ (next = some (Text.byte '-') ∨ next = some (Text.byte ':')) then
      let token := body.takeWhile momentByte
      (Moment.shown? (Text.trimEnd (· == Text.byte ' ') token)).map fun shown =>
        (.moment shown, body.drop token.length)
    else
      let whole := body.takeWhile fun b => Text.isDigit b || b == Text.byte '_'
      if (body[whole.length]?).any dividesNumber then
        let token := body.takeWhile fractionalByte
        (fractional? (sign ++ token)).map fun x => (.number x, body.drop token.length)
      else (integer? (sign ++ whole)).map fun n => (.integer n, body.drop whole.length)

/-- A word that stands for a value. -/
def word? (t : Text) : Option (Toml × Text) :=
  let words : List (Text × Toml) :=
    [("true", .flag true), ("false", .flag false),
      ("inf", .number (1.0 / 0.0)), ("+inf", .number (1.0 / 0.0)), ("-inf", .number (-1.0 / 0.0)),
      ("nan", .number (0.0 / 0.0)), ("+nan", .number (0.0 / 0.0)), ("-nan", .number (0.0 / 0.0))]
  (words.find? fun (w, _) => w.isPrefixOf t).map fun (w, v) => (v, t.drop w.length)

/-- A value that is neither a list nor a table. -/
def scalar? (t : Text) : Option (Toml × Text) :=
  match word? t with
  | some r => some r
  | none =>
    match numeral? t with
    | some r => some r
    | none => (anyText? t).map fun (u, rest) => (.text u, rest)

end Bareword.Toml
