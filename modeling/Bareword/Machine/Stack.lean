import Bareword.Value.Basic

/-! # The stack

A stack of bounded height. The places above the top are remembered: taking a value leaves a hole,
and a return may move the top without touching the places.

* `Stack.push?`, `Stack.pop?`: the stack with a value on top, the top value and the rest.
* `Stack.resize`: the stack with its top elsewhere.
-/

namespace Bareword
set_option autoImplicit false

/-- A stack: the values from the top down, and the places above the top from there up. -/
structure Stack where
  live : List Value := []
  above : List Value := []
  deriving Inhabited

namespace Stack

/-- The greatest height. -/
def limit : Nat := 1024

def height (s : Stack) : Nat := s.live.length

/-- The stack with a value on top, if there is room. -/
def push? (s : Stack) (v : Value) : Option Stack :=
  if s.height + 1 > limit then none else some ⟨v :: s.live, s.above.drop 1⟩

def pop? (s : Stack) : Option (Value × Stack) :=
  match s.live with
  | [] => none
  | v :: rest => some (v, ⟨rest, .hole :: s.above⟩)

def top? (s : Stack) : Option Value := s.live.head?

/-- Moves the top down by `n` places. What they hold stays there. -/
def lower : Nat → Stack → Stack
  | 0, s => s
  | n + 1, s =>
    match s.live with
    | [] => s
    | v :: rest => lower n ⟨rest, v :: s.above⟩

/-- Moves the top up by `n` places, which hold what they held. -/
def raise : Nat → Stack → Stack
  | 0, s => s
  | n + 1, s => raise n ⟨s.above.headD .hole :: s.live, s.above.drop 1⟩

/-- The stack with its top at a height. -/
def resize (h : Nat) (s : Stack) : Stack :=
  if h ≤ s.height then s.lower (s.height - h) else s.raise (h - s.height)

end Stack
end Bareword
