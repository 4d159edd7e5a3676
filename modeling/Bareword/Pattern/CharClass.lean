import Bareword.Pattern.Escape

/-! # Character classes in patterns

A class stands between brackets and lists characters, ranges and named classes. Every reader answers
with the set of characters and with what follows.

* `propertyClass`, `shortClass?`: the classes that also stand alone.
* `charClass`: a class between brackets.
-/

namespace Bareword.Pattern
set_option autoImplicit false

/-- A class escape such as `\d`, if one stands first. -/
def shortClass? (ignoresCase : Bool) : Text → Option (CharSet × Text)
  | a :: b :: rest =>
    if a = Text.byte '\\' then
      let found := escapeClasses.find? fun (c, _) => b = Text.byte c ∨ b = Text.byte c - 32
      found.map fun (c, runs) =>
        let set := CharSet.ofClass ignoresCase runs
        (if b = Text.byte c then set else set.complement, rest)
    else none
  | _ => none

/-- A property class such as `\p\x7bHan\x7d`, if one stands first. -/
def propertyClass (ignoresCase : Bool) (s : Text) : Except Fault (Option (CharSet × Text)) :=
  match s with
  | a :: b :: t =>
    if a ≠ Text.byte '\\' ∨ (b ≠ Text.byte 'p' ∧ b ≠ Text.byte 'P') then .ok none
    else do
      let (c, rest) ← rune t
      let (name, whole, rest) ←
        if c ≠ '\x7b'.toNat then
          let letter := if t.isEmpty then [] else Text.encode c
          pure (letter, a :: b :: letter, rest)
        else
          match Text.find? "\x7d" s with
          | none => do
            checkEncoding s
            .error ⟨.badRange, s⟩
          | some stop => do
            let name := s.extract 3 stop
            checkEncoding name
            pure (name, s.take (stop + 1), s.drop (stop + 1))
      let isNegated := name.head? = some (Text.byte '^')
      match property? (Text.dropLead "^" name) with
      | none => .error ⟨.badRange, whole⟩
      | some (p, isOutside) =>
        let isComplement := ((b = Text.byte 'P') ^^ isNegated) ^^ isOutside
        .ok (some (CharSet.ofProperty ignoresCase isComplement p, rest))
  | _ => .ok none

/-- A bracketed class such as `[:alpha:]`, if one stands first. -/
def bracketClass (ignoresCase : Bool) (s : Text) : Except Fault (Option (CharSet × Text)) :=
  if (s.drop 2).isEmpty ∨ ¬ (Text.ofString "[:").isPrefixOf s then .ok none
  else
    match Text.find? ":]" (s.drop 2) with
    | none => .ok none
    | some i =>
      let name := (s.drop 2).take i
      let isNegated := name.head? = some (Text.byte '^')
      match bracketClasses.find? fun (n, _) => Text.ofString n = Text.dropLead "^" name with
      | none => .error ⟨.badRange, s.take (i + 4)⟩
      | some (_, runs) =>
        let set := CharSet.ofClass ignoresCase runs
        .ok (some (if isNegated then set.complement else set, s.drop (i + 4)))

/-- One character of a class; `whole` is the class from its opening bracket on. -/
def classRune (whole s : Text) : Except Fault (Nat × Text) :=
  match s with
  | [] => .error ⟨.missingBracket, whole⟩
  | b :: _ => if b = Text.byte '\\' then escape s else rune s

/-- A character of a class or a range of characters. -/
def classRange (whole s : Text) : Except Fault (Run × Text) := do
  let (low, t) ← classRune whole s
  match t with
  | a :: b :: _ =>
    if a = Text.byte '-' ∧ b ≠ Text.byte ']' then
      let (high, t) ← classRune whole (t.drop 1)
      if high < low then refuse .badRange s t else .ok ((low, high), t)
    else .ok ((low, low), t)
  | _ => .ok ((low, low), t)

def classMember (ignoresCase : Bool) (whole s : Text) : Except Fault (CharSet × Text) := do
  match ← bracketClass ignoresCase s with
  | some found => return found
  | none =>
    match ← propertyClass ignoresCase s with
    | some found => return found
    | none =>
      match shortClass? ignoresCase s with
      | some found => return found
      | none =>
        let (run, rest) ← classRange whole s
        return (CharSet.ofClass ignoresCase [run], rest)

/-- The members of a class up to its closing bracket, added to `set`. The first member may be a
bracket. The fuel bounds their number. -/
def classMembers (ignoresCase : Bool) (whole : Text) :
    Nat → Bool → CharSet → Text → Except Fault (CharSet × Text)
  | 0, _, _, _ => .error ⟨.missingBracket, whole⟩
  | fuel + 1, isFirst, set, t =>
    if t.head? = some (Text.byte ']') ∧ ¬ isFirst then .ok (set, t.drop 1)
    else
      match classMember ignoresCase whole t with
      | .error e => .error e
      | .ok (more, t) => classMembers ignoresCase whole fuel false (set.union more) t

/-- A class, from its opening bracket on. The fuel bounds the number of its members. -/
def charClass (ignoresCase : Bool) (fuel : Nat) (s : Text) : Except Fault (CharSet × Text) := do
  let isNegated := s[1]? = some (Text.byte '^')
  let (set, rest) ← classMembers ignoresCase s fuel true {} (Text.dropLead "^" (s.drop 1))
  return (if isNegated then set.complement else set, rest)

end Bareword.Pattern
