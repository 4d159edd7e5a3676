import Bareword.Scope.Context
import Bareword.Token.Scan
import Std.Data.HashMap

/-! # Remembered tokens

The scanner's answer depends on the offset, the accepted kinds and the bound names only, so it can
be remembered. The bound names are remembered by the fingerprint of their scope.
-/

namespace Bareword.Token
set_option autoImplicit false
open Scope (Context)

/-- What the scanner can tell of a scope. -/
structure View where
  /-- Whether a name is bound. -/
  has : Text → Bool
  /-- The fingerprint of the scope. -/
  hash : UInt64

/-- The words of a question to the scanner. -/
structure Query where
  pos : Nat
  accept : KindSet
  scope : UInt64
  deriving DecidableEq, Hashable, Repr

/-- The answers given so far and how often one was used again. -/
structure Memo where
  answers : Std.HashMap Query Token
  hits : Nat

namespace Memo

/-- The memo without answers. -/
def empty : Memo := ⟨{}, 0⟩

instance : Inhabited Memo := ⟨empty⟩

/-- The token at or after `pos`, remembered or scanned. Without a scope nothing is bound and the
fingerprint is zero. -/
def ask (m : Memo) (src : Text) (pos : Nat) (accept : KindSet) (scope : Option View) : Token × Memo :=
  let query : Query := ⟨pos, accept, (scope.map (·.hash)).getD 0⟩
  match m.answers[query]? with
  | some tok => (tok, { m with hits := m.hits + 1 })
  | none =>
    let tok := scan src pos accept (scope.map (·.has))
    (tok, { m with answers := m.answers.insert query tok })

/-- The token at or after `pos` in the scope of a parse, if there is one. -/
def next (m : Memo) (src : Text) (pos : Nat) (accept : KindSet) (context : Option Context) :
    Token × Memo :=
  m.ask src pos accept (context.map fun c => ⟨c.has, c.hash⟩)

end Memo
end Bareword.Token
