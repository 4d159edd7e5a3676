import Bareword.Token.Basic
import Bareword.Token.Char

/-! # Scanning tokens

The scanner has no cursor. The caller passes the offset to read from, the kinds that it can accept
there and the names that are bound there, and the scanner answers with one token, so the same
question always has the same answer.

Bare words are ambiguous. A run such as `readme.txt` is a file name unless `readme` is bound, when
it is a property access; a run such as `x` is an assignment target if an equals sign follows.

* `Token.scan`: the token at or after an offset.
* `Token.wordPiece`, `Token.stringPiece`: the next piece of a bare word or of a quoted string.
* `Token.unescape`: the text that an escape sequence stands for.
-/

namespace Bareword.Token
set_option autoImplicit false

/-! ## Blanks -/

/-- The number of blank bytes at the front; line feeds count as blank unless they are kept. -/
def blankLength (keepNewline : Bool) : Text → Nat
  | [] => 0
  | b :: rest =>
    if b = Text.byte ' ' ∨ b = Text.byte '\t' ∨ b = Text.byte '\r' ∨
        (b = Text.byte '\n' ∧ keepNewline = false)
    then blankLength keepNewline rest + 1
    else 0

/-- The first offset at or after `pos` that is not blank. -/
def skipBlank (src : Text) (pos : Nat) (keepNewline : Bool) : Nat :=
  pos + blankLength keepNewline (src.drop pos)

/-! ## Runs of word characters -/

/-- How a run of word characters looks: a name, any other word, or a bound name before a dot. -/
inductive Shape where
  | name
  | word
  | beforeDot
  deriving DecidableEq, Repr

/-- What ends a run of word characters early. -/
structure RunRule where
  /-- Whether the run may be a word that is no name. -/
  allowWord : Bool
  /-- Whether an equals sign ends a name. -/
  stopAtEq : Bool
  /-- Whether an operator ends a bound name. -/
  splitOps : Bool
  /-- The bound names, when they matter. -/
  bound : Option (Text → Bool)

/-- Whether the character `c` after the text `lead` ends it as a bound name. -/
def RunRule.splits (rule : RunRule) (lead : Text) (c : Nat) : Bool :=
  match rule.bound with
  | none => false
  | some isBound =>
    (c == '.'.toNat || (rule.splitOps && isOperatorChar c)) && isBound lead

/-- Walks a run of word characters. `whole` is the run from its start, `n` the number of bytes
already walked, `name` whether they look like a name, and the last argument what is left. -/
def runFrom (rule : RunRule) (whole : Text) (n : Nat) (name : Bool) (s : Text) : Nat × Shape :=
  let finish : Nat × Shape := (n, if name then .name else .word)
  match h : s.next? with
  | none => finish
  | some (r, rest) =>
    have := Text.length_lt_of_next? h
    if !isWordChar r.code then finish
    else if r.code = '\\'.toNat then
      if !rule.allowWord then finish
      else
        match h' : rest.next? with
        | none => (n + r.width, .word)
        | some (e, rest') =>
          have := Text.length_lt_of_next? h'
          runFrom rule whole (n + r.width + e.width) false rest'
    else if isSeparatorChar r.code && (!rule.allowWord || !startsWord rest) then finish
    else if name && 0 < n && r.code == '='.toNat && rule.stopAtEq then (n, .name)
    else if name && 0 < n && rule.splits (whole.take n) r.code then
      (n, if r.code = '.'.toNat then .beforeDot else .name)
    else if name then
      if (if n = 0 then isNameStart r.code else isNameChar r.code) then
        runFrom rule whole (n + r.width) true rest
      else if !rule.allowWord then finish
      else runFrom rule whole (n + r.width) false rest
    else runFrom rule whole (n + r.width) false rest
termination_by s.length

/-- The length and the shape of the run of word characters at the front of a text. -/
def run (rule : RunRule) (s : Text) : Nat × Shape := runFrom rule s 0 true s

/-- The rule that takes a whole run as it stands. -/
def RunRule.whole : RunRule := ⟨true, false, false, none⟩

/-! ## Literals -/

/-- Digits with an optional minus sign in front and an optional fraction behind. -/
def isNumber (t : Text) : Bool :=
  let digits := Text.dropLead "-" t
  let whole := digits.takeWhile Text.isDigit
  match digits.drop whole.length with
  | [] => !whole.isEmpty
  | b :: fraction =>
    b == Text.byte '.' && !whole.isEmpty && !fraction.isEmpty && fraction.all Text.isDigit

/-- The length of a regex literal: a pattern between double slashes on one line, then flags. -/
def regexLength? (s : Text) : Option Nat :=
  let body := s.drop 2
  match Text.find? "//" body with
  | none => none
  | some 0 => none
  | some n =>
    if (body.take n).contains (Text.byte '\n') then none
    else
      let tail := body.drop (n + 2)
      let flags := tail.takeWhile fun b => isLower b.toNat
      let after := tail.drop flags.length
      let closed :=
        match Text.next? after with
        | none => true
        | some (r, rest) => !isWordChar r.code || (isSeparatorChar r.code && !startsWord rest)
      if closed then some (2 + n + 2 + flags.length) else none

/-- Whether the next character after the blanks is a single equals sign. -/
def assignFollows (s : Text) : Bool :=
  match s.drop (blankLength true s) with
  | [] => false
  | b :: rest => b == Text.byte '=' && rest.head? != some (Text.byte '=')

/-! ## Tokens -/

/-- The kind of a character that is a token by itself. -/
def punctuation? (accept : KindSet) (c : Nat) : Option Kind :=
  if c = '\n'.toNat then some .newline
  else if c = '('.toNat then some .openParen
  else if c = ')'.toNat then some .closeParen
  else if c = ';'.toNat then some .semicolon
  else if c = ':'.toNat then some .colon
  else if c = '\''.toNat ∨ c = '"'.toNat then some .quote
  else if c = '.'.toNat ∧ accept.has .dot then some .dot
  else none

/-- The operator that a text spells, if it is accepted. -/
def operator? (accept : KindSet) (t : Text) : Option Kind :=
  (Kind.ofOperator? t).filter accept.has

/-- The longest accepted operator at the front of a text, and its length. -/
def gluedOperator? (accept : KindSet) (t : Text) : Option (Kind × Nat) :=
  let two := if 2 ≤ t.length then (operator? accept (t.take 2)).map (·, 2) else none
  two.or (if 1 ≤ t.length then (operator? accept (t.take 1)).map (·, 1) else none)

/-- The kind and the length of the token that a name becomes; `s` starts with the name. -/
def nameToken (accept : KindSet) (s : Text) (n : Nat) : Kind × Nat :=
  match Kind.ofKeyword? (s.take n) with
  | some kind => (kind, n)
  | none =>
    let after := s.drop n
    if after.head? == some (Text.byte '=') && accept.has .argName then (.argName, n + 1)
    else if accept.has .assignable && assignFollows after then (.assignable, n)
    else (.identifier, n)

/-- The kind and the length of the token at the front of a text that starts with the rune `r`. -/
def classify (accept : KindSet) (bound : Option (Text → Bool)) (r : Rune) (s : Text) :
    Kind × Nat :=
  match punctuation? accept r.code with
  | some kind => (kind, 1)
  | none =>
  match (if accept.has .regex && List.isPrefixOf (Text.ofString "//") s then regexLength? s else none) with
  | some n => (.regex, n)
  | none =>
  let allowWord := accept.has .word
  let raw := (run .whole s).1
  let text := s.take raw
  match operator? accept text with
  | some kind => (kind, raw)
  | none =>
  if isNumber text && accept.has .number then (.number, raw)
  else
  match (if allowWord then none else gluedOperator? accept text) with
  | some found => found
  | none =>
  let rule : RunRule :=
    { allowWord
      stopAtEq := accept.has .argName || accept.has .assignable
      splitOps := !accept.has .argName
      bound := if accept.has .beforeDot then bound else none }
  match run rule s with
  | (0, _) => (.illegal, r.width)
  | (n, .beforeDot) => (.beforeDot, n)
  | (n, .name) => nameToken accept s n
  | (n, .word) => (if allowWord then .word else .illegal, n)

/-- The token at or after `pos`, given the kinds accepted there and the names bound there. -/
def scan (src : Text) (pos : Nat) (accept : KindSet) (bound : Option (Text → Bool)) : Token :=
  let start := skipBlank src pos (accept.has .newline)
  let s := src.drop start
  match Text.next? s with
  | none => mark .eof src.length
  | some (r, _) =>
    let (kind, n) := classify accept bound r s
    cut src kind start (start + n)

/-! ## Pieces of words and strings -/

/-- The length of the rest of an interpolated name. A hyphen belongs to the name only when more of
the name follows. -/
def interpLength (s : Text) : Nat :=
  match h : s.next? with
  | none => 0
  | some (r, rest) =>
    have := Text.length_lt_of_next? h
    if r.code = '-'.toNat then
      match rest.next? with
      | some (e, _) => if isInterpChar e.code then r.width + interpLength rest else 0
      | none => 0
    else if isInterpChar r.code then r.width + interpLength rest
    else 0
termination_by s.length

/-- What follows a dollar sign: an opening parenthesis, or a name of some length. -/
inductive Interp where
  | opening
  | name (length : Nat)
  deriving DecidableEq, Repr

/-- The interpolation that the text after a dollar sign starts, if any. -/
def interp? (s : Text) : Option Interp :=
  match s.next? with
  | none => none
  | some (r, rest) =>
    if r.code = '('.toNat then some .opening
    else if isInterpStart r.code then some (.name (r.width + interpLength rest))
    else none

/-- The token of an interpolation whose dollar sign stands at `pos`. -/
def Interp.token (src : Text) (pos : Nat) : Interp → Token
  | .opening => cut src .interpOpen pos (pos + 2)
  | .name n => ⟨.interpName, src.extract (pos + 1) (pos + 1 + n), pos, pos + 1 + n⟩

/-- The token of the escape sequence whose backslash stands at `pos`; `rest` follows it. -/
def escapeAt (src : Text) (pos : Nat) (rest : Text) : Token :=
  let width := match rest.next? with
    | none => 0
    | some (r, _) => r.width
  cut src .escape pos (pos + 1 + width)

/-- The number of bytes at the front that are literal: those before the first character that
`ends` and before the first escape or interpolation. -/
def literalLength (ends : Nat → Text → Bool) (s : Text) : Nat :=
  match h : s.next? with
  | none => 0
  | some (r, rest) =>
    have := Text.length_lt_of_next? h
    if ends r.code rest || r.code == '\\'.toNat ||
        (r.code == '$'.toNat && (interp? rest).isSome)
    then 0
    else r.width + literalLength ends rest
termination_by s.length

/-- Whether the character `c` followed by `rest` ends a bare word. -/
def endsWord (c : Nat) (rest : Text) : Bool :=
  !isWordChar c || (isSeparatorChar c && !startsWord rest)

/-- The piece that starts with the rune `r` at `pos`, when that rune does not end the text. -/
def pieceAt (ends : Nat → Text → Bool) (src : Text) (pos : Nat) (r : Rune) (rest : Text) : Token :=
  if r.code = '\\'.toNat ∧ rest ≠ [] then escapeAt src pos rest
  else
    match (if r.code = '$'.toNat then interp? rest else none) with
    | some i => i.token src pos
    | none => cut src .fragment pos (pos + r.width + literalLength ends rest)

/-- The next piece of a bare word at `pos`: literal text, an escape, an interpolation, or
`fragmentEnd` when the word is over. -/
def wordPiece (src : Text) (pos : Nat) : Token :=
  match Text.next? (src.drop pos) with
  | none => mark .fragmentEnd pos
  | some (r, rest) =>
    if endsWord r.code rest then mark .fragmentEnd pos else pieceAt endsWord src pos r rest

/-- The next piece of a quoted string at `pos`: `quote` at the closing quote and `eof` when the
string is not closed. -/
def stringPiece (src : Text) (pos : Nat) (quote : Nat) : Token :=
  match Text.next? (src.drop pos) with
  | none => mark .eof src.length
  | some (r, rest) =>
    if r.code = quote then cut src .quote pos (pos + r.width)
    else pieceAt (fun c _ => c == quote) src pos r rest

/-- The text that an escape sequence stands for. Only `n`, `t` and `r` have a meaning of their own;
any other escaped character stands for itself. -/
def unescape (t : Text) : Text :=
  match t with
  | b :: c :: rest =>
    if b ≠ Text.byte '\\' then t
    else if rest ≠ [] then c :: rest
    else if c = Text.byte 'n' then "\n"
    else if c = Text.byte 't' then "\t"
    else if c = Text.byte 'r' then "\r"
    else [c]
  | _ => t

end Bareword.Token
