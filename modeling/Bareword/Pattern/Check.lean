import Bareword.Pattern.Alternatives
import Bareword.Pattern.CharClass

/-! # Checking patterns

A pattern of a regular expression is read from left to right until its first fault.

* `Pattern.check`: the first fault of a pattern.
* `Pattern.withFlags`: a pattern with flags in front.
-/

namespace Bareword.Pattern
set_option autoImplicit false
-- Powers are those of the core library, whatever instances are imported later.
attribute [local instance (high)] instPowNat

/-! ## Repetitions -/

/-- A count of a repetition; numbers that are too large are all the same. -/
def count (t : Text) : Option (Nat × Text) :=
  let digits := t.takeWhile Text.isDigit
  if digits.isEmpty ∨ (digits.head? = some (Text.byte '0') ∧ digits.length > 1) then none
  else some (digits.foldl (fun acc b => min (acc * 10 + (b.toNat - 48)) (10 ^ (9 : Nat))) 0,
    t.drop digits.length)

/-- The bounds between the braces of a repetition and what follows, if it is one. -/
def bounds? (s : Text) : Option (Nat × Option Nat × Text) :=
  (count (s.drop 1)).bind fun (low, t) =>
    let close (high : Option Nat) (t : Text) : Option (Nat × Option Nat × Text) :=
      if t.head? = some (Text.byte '\x7d') then some (low, high, t.drop 1) else none
    if t.head? ≠ some (Text.byte ',') then close (some low) t
    else if (t.drop 1).head? = some (Text.byte '\x7d') then close none (t.drop 1)
    else (count (t.drop 1)).bind fun (high, t) => close (some high) t

/-- Repeats the node on top of the stack. `before` is the pattern from the operator on, `after` what
follows it, and `lastRepeat` the pattern from the repetition on that stands right before, if one
does. -/
def repeatTop (op : Op) (before after lastRepeat : Text) : Reading Text := do
  let isLazy := after.head? = some (Text.byte '?')
  let after := Text.dropLead "?" after
  if ¬ lastRepeat.isEmpty then refuse .nestedRepeat lastRepeat after
  else
    let s ← get
    match s.stack with
    | .node sub :: rest =>
      let flags := { s.flags with isLazy := s.flags.isLazy ^^ isLazy }
      let n ← checkLimits (← make op flags [sub])
      modify fun s => { s with stack := .node n :: rest }
      match op with
      | .counted low high =>
        if (low ≥ 2 ∨ high.getD 0 ≥ 2) ∧ ¬ n.repeatsWithin maxCopies then
          refuse .badRepeatCount before after
        else return after
      | _ => return after
    | _ => refuse .missingOperand before after

/-- Repeats the node on top of the stack as often as the braces say. -/
def repeatCounted (low : Nat) (high : Option Nat) (before after lastRepeat : Text) :
    Reading Text := do
  if low > maxCopies ∨ high.getD low > maxCopies ∨ high.getD low < low then
    refuse .badRepeatCount before after
  else repeatTop (.counted low high) before after lastRepeat

/-! ## Groups -/

/-- A name of a group: letters, digits and underscores. -/
def isGroupName (name : Text) : Bool :=
  !name.isEmpty && name.all fun b => isAlphanumeric b.toNat || b == Text.byte '_'

/-- The flags with one of them set or cleared, by its letter. -/
def Flags.assign? (flags : Flags) (letter : Nat) (isOn : Bool) : Option Flags :=
  if letter = 'i'.toNat then some { flags with ignoresCase := isOn }
  else if letter = 'm'.toNat then some { flags with isMultiline := isOn }
  else if letter = 's'.toNat then some { flags with dotMatchesAll := isOn }
  else if letter = 'U'.toNat then some { flags with isLazy := isOn }
  else none

/-- The flags of a group, then a colon that opens it or a parenthesis that ends the flags. The
answer is the flags and whether a group opens. `isNegated` says that a minus sign was read, and
`sawFlag` that a flag was read after it. -/
def groupFlags (s : Text) :
    Nat → Flags → Bool → Bool → Text → Except Fault (Flags × Bool × Text)
  | 0, _, _, _, t => refuse .badGroup s t
  | fuel + 1, flags, isNegated, sawFlag, t =>
    if t.isEmpty then .error ⟨.badGroup, s⟩
    else do
      let (c, t) ← rune t
      match flags.assign? c (!isNegated) with
      | some flags => groupFlags s fuel flags isNegated true t
      | none =>
        if c = '-'.toNat then
          if isNegated then refuse .badGroup s t else groupFlags s fuel flags true false t
        else if c = ':'.toNat ∨ c = ')'.toNat then
          if isNegated ∧ ¬ sawFlag then refuse .badGroup s t
          else .ok (flags, c = ':'.toNat, t)
        else refuse .badGroup s t

def openGroup (isCapture : Bool) : Reading Unit := do
  pushMarker (.opening isCapture (← get).flags)

/-- A group that starts with `(?`. -/
def specialGroup (s : Text) : Reading Text := do
  let isLong := s[2]? = some (Text.byte 'P') ∧ s[3]? = some (Text.byte '<') ∧ s[4]?.isSome
  let isShort := s[2]? = some (Text.byte '<') ∧ s[3]?.isSome
  if isLong ∨ isShort then
    match Text.find? ">" s with
    | none => do
      checkEncoding s
      throw ⟨.badGroupName, s⟩
    | some stop => do
      let name := s.extract (if isShort then 3 else 4) stop
      checkEncoding name
      if isGroupName name then
        openGroup true
        return s.drop (stop + 1)
      else throw ⟨.badGroupName, s.take (stop + 1)⟩
  else
    let (flags, opens, t) ← groupFlags s (← get).bound (← get).flags false false (s.drop 2)
    if opens then openGroup false
    modify fun st => { st with flags }
    return t

/-- Closes a group. -/
def closeGroup : Reading Unit := do
  alternate
  let s ← get
  match s.stack with
  | .node n :: .opening isCapture outer :: rest =>
    set { s with stack := rest, flags := outer }
    push (if isCapture then
        { op := .capture, flags := outer, subs := [n], height := n.height + 1 }
      else n)
  | _ => refuseWhole .unexpectedParen

/-! ## Escapes -/

/-- Every character of a quoted part. The fuel bounds their number. -/
def quotedPart : Nat → Text → Reading Unit
  | 0, _ => return ()
  | fuel + 1, t =>
    if t.isEmpty then return ()
    else do
      let (c, t) ← rune t
      pushLiteral c
      quotedPart fuel t

/-- A class that was read, for which a node is made. -/
def pushClass (set : CharSet) : Reading Unit := pushNew (.oneOf set)

/-- What starts with a backslash. -/
def backslash (s : Text) : Reading Text := do
  let next := s[1]?
  let is (c : Char) : Bool := next == some (Text.byte c)
  if is 'A' || is 'b' || is 'B' || is 'z' then
    pushNew .position
    return s.drop 2
  else if is 'C' then throw ⟨.badEscape, s.take 2⟩
  else if is 'Q' then
    let body := s.drop 2
    let bound := (← get).bound
    match Text.find? "\\E" body with
    | none =>
      quotedPart bound body
      return []
    | some n =>
      quotedPart bound (body.take n)
      return body.drop (n + 2)
  else
    let ignoresCase := (← get).flags.ignoresCase
    match ← (propertyClass ignoresCase s : Except Fault _) with
    | some (set, rest) =>
      pushClass set
      return rest
    | none =>
      match shortClass? ignoresCase s with
      | some (set, rest) =>
        pushClass set
        return rest
      | none =>
        giveBack { op := .empty, size? := ← takeRecord }
        let (c, rest) ← escape s
        pushLiteral c
        return rest

/-! ## Patterns -/

/-- Reads one thing. The answer is what follows, and the pattern from it on if it is a repetition.
-/
def step (lastRepeat s : Text) : Reading (Text × Text) := do
  let b := s.headD 0
  let rest := s.drop 1
  if b = Text.byte '(' then
    if s[1]? = some (Text.byte '?') then return (← specialGroup s, [])
    else
      openGroup true
      return (rest, [])
  else if b = Text.byte ')' then
    closeGroup
    return (rest, [])
  else if b = Text.byte '|' then
    endAlternative
    return (rest, [])
  else if b = Text.byte '^' ∨ b = Text.byte '$' then
    pushNew .position
    return (rest, [])
  else if b = Text.byte '.' then
    pushNew (if (← get).flags.dotMatchesAll then .anyChar else .anyButNewline)
    return (rest, [])
  else if b = Text.byte '[' then
    let st ← get
    let (set, rest) ← charClass st.flags.ignoresCase st.bound s
    pushClass set
    return (rest, [])
  else if b = Text.byte '*' then return (← repeatTop .star s rest lastRepeat, s)
  else if b = Text.byte '+' then return (← repeatTop .plus s rest lastRepeat, s)
  else if b = Text.byte '?' then return (← repeatTop .optional s rest lastRepeat, s)
  else if b = Text.byte '\x7b' then
    match bounds? s with
    | none =>
      pushLiteral b.toNat
      return (rest, [])
    | some (low, high, after) => return (← repeatCounted low high s after lastRepeat, s)
  else if b = Text.byte '\\' then return (← backslash s, [])
  else
    let (c, rest) ← rune s
    pushLiteral c
    return (rest, [])

/-- Reads a pattern to its end. The fuel bounds the number of steps. -/
def steps : Nat → Text → Text → Reading Unit
  | 0, _, _ => return ()
  | fuel + 1, lastRepeat, s =>
    if s.isEmpty then return ()
    else do
      let (rest, lastRepeat) ← step lastRepeat s
      steps fuel lastRepeat rest

/-- Reads a whole pattern. -/
def readWhole : Reading Unit := do
  let s ← get
  steps s.bound [] s.whole
  alternate
  match (← get).stack with
  | [_] => return ()
  | _ => refuseWhole .missingParen

/-- Checks that a text is a pattern. -/
def check (s : Text) : Except Fault Unit :=
  (readWhole.run { whole := s, bound := s.length + 1 }).map fun _ => ()

/-! ## Flags -/

/-- A pattern with flags in front, if there are any. -/
def withFlags (flags pattern : Text) : Text :=
  if flags.isEmpty then pattern else "(?" ++ flags ++ ")" ++ pattern

/-- The flags that change how a pattern matches. -/
def matchingFlags : Text := "ims"

/-- The flags of a regular expression that change how it matches, in a fixed order. -/
def inlineFlags (flags : Text) : Text := matchingFlags.filter (flags.contains ·)

/-- The expression of a pattern with flags. -/
def expression (pattern flags : Text) : Text := withFlags (inlineFlags flags) pattern

end Bareword.Pattern
