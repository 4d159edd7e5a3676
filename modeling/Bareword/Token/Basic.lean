import Bareword.Token.Kind
import Bareword.Span

/-! # Tokens

A token is a kind, a range of the source and a text, which is the text of that range for every
kind but `interpName`, whose text leaves out the leading dollar sign.
-/

namespace Bareword
set_option autoImplicit false

/-- A terminal of the language, with the byte offsets where it starts and stops. -/
structure Token where
  kind : Token.Kind
  text : Text
  start : Nat
  stop : Nat
  deriving DecidableEq, Repr, Inhabited

namespace Token

/-- The range of the source that the token covers. -/
def span (t : Token) : Span := ⟨t.start, t.stop⟩

/-- The token of a range of the source. -/
def cut (src : Text) (kind : Kind) (start stop : Nat) : Token :=
  ⟨kind, src.extract start stop, start, stop⟩

/-- A token without text at one offset. -/
def mark (kind : Kind) (at_ : Nat) : Token := ⟨kind, [], at_, at_⟩

end Token
end Bareword
