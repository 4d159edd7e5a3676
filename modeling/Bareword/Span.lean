import Bareword.Text.Rune

/-! # Spans and positions

Where something stands in a source text.

* `Span`: a half-open range of byte offsets.
* `Position`: a line and a column, the column counted in runes.
* `Position.ofOffset`: the position of a byte offset; offsets outside the text are clamped.
-/

namespace Bareword
set_option autoImplicit false

/-- A half-open range of byte offsets. -/
structure Span where
  start : Int
  stop : Int
  deriving DecidableEq, Repr, Inhabited

namespace Span

def zero : Span := ⟨0, 0⟩

def point (at_ : Nat) : Span := ⟨at_, at_⟩

def len (s : Span) : Int := s.stop - s.start

/-- The bytes of `src` that the span covers, or nothing when it does not lie in `src`. -/
def text (s : Span) (src : Text) : Text := src.slice s.start s.stop

/-- The smallest span that contains both. -/
def cover (s o : Span) : Span := ⟨min s.start o.start, max s.stop o.stop⟩

end Span

/-- A place in a text: its byte offset, its line and its column, both counted from zero. -/
structure Position where
  offset : Nat
  line : Nat
  column : Nat
  deriving DecidableEq, Repr

namespace Position

/-- The line, counted from one. -/
def lineNumber (p : Position) : Nat := p.line + 1

def columnNumber (p : Position) : Nat := p.column + 1

/-- The bytes after the last line feed. -/
def lastLine (t : Text) : Text := (t.reverse.takeWhile (· ≠ Text.byte '\n')).reverse

def ofOffset (src : Text) (offset : Int) : Position :=
  let at_ := min offset.toNat src.length
  let front := src.take at_
  ⟨at_, front.count (Text.byte '\n'), (lastLine front).runeCount⟩

/-- The position as a line and a column, both counted from one. -/
def render (p : Position) : Text :=
  Text.ofNat p.lineNumber ++ ":" ++ Text.ofNat p.columnNumber

end Position
end Bareword
