import Bareword.Text.Basic

/-! # Dates and times

Dates, times and both together, with an offset from universal time or without one. A written moment
is checked and turned into the form in which messages show it.

* `Moment.shown?`: the shown form of a written moment, if it is one.
-/

namespace Bareword.Moment
set_option autoImplicit false

/-- A number of exactly `n` digits at the front of a text, after digits of the value `acc`. -/
def digits? : Nat → Nat → Text → Option (Nat × Text)
  | 0, acc, t => some (acc, t)
  | _ + 1, _, [] => none
  | n + 1, acc, b :: t =>
    if Text.isDigit b then digits? n (acc * 10 + (b.toNat - 48)) t else none

/-- What follows a character at the front of a text. -/
def after? (c : Char) : Text → Option Text
  | [] => none
  | b :: t => if b = Text.byte c then some t else none

/-- A number with zeros in front of it up to a width. -/
def padded (width n : Nat) : Text :=
  let digits := Text.ofNat n
  List.replicate (width - digits.length) (Text.byte '0') ++ digits

def isLeap (year : Nat) : Bool := year % 4 = 0 && (year % 100 ≠ 0 || year % 400 = 0)

def daysIn (year month : Nat) : Nat :=
  if month = 2 then (if isLeap year then 29 else 28)
  else if month = 4 ∨ month = 6 ∨ month = 9 ∨ month = 11 then 30
  else 31

/-- A date at the front of a text, and what follows it. -/
def date? (t : Text) : Option (Text × Text) := do
  let (year, t) ← digits? 4 0 t
  let (month, t) ← digits? 2 0 (← after? '-' t)
  let (day, t) ← digits? 2 0 (← after? '-' t)
  guard (1 ≤ month ∧ month ≤ 12 ∧ 1 ≤ day ∧ day ≤ daysIn year month)
  return (padded 4 year ++ "-" ++ padded 2 month ++ "-" ++ padded 2 day, t)

/-- The digits of a fraction of a second as they are shown: at most nine, without zeros at the end.
-/
def fraction (digits : Text) : Text :=
  let kept := Text.trimEnd (· == Text.byte '0') (digits.take 9)
  if kept.isEmpty then [] else Text.byte '.' :: kept

/-- A time at the front of a text, and what follows it. -/
def time? (t : Text) : Option (Text × Text) := do
  let (hour, t) ← digits? 2 0 t
  let (minute, t) ← digits? 2 0 (← after? ':' t)
  let (second, t) ← digits? 2 0 (← after? ':' t)
  guard (hour < 24 ∧ minute < 60 ∧ second < 60)
  let shown := padded 2 hour ++ ":" ++ padded 2 minute ++ ":" ++ padded 2 second
  match after? '.' t with
  | none => return (shown, t)
  | some rest =>
    let digits := rest.takeWhile Text.isDigit
    guard !digits.isEmpty
    return (shown ++ fraction digits, rest.dropWhile Text.isDigit)

/-- A whole text that is an offset from universal time, as it is shown. An offset of zero is
universal time. -/
def offset? : Text → Option Text
  | [] => none
  | [b] => if b = Text.byte 'Z' then some "+0000 UTC" else none
  | sign :: t => do
    guard (sign = Text.byte '+' ∨ sign = Text.byte '-')
    let (hours, t) ← digits? 2 0 t
    let (minutes, t) ← digits? 2 0 (← after? ':' t)
    guard (t.isEmpty ∧ hours ≤ 24 ∧ minutes ≤ 60)
    let total := hours * 60 + minutes
    if total = 0 then return "+0000 UTC"
    let shown := sign :: padded 2 (total / 60) ++ padded 2 (total % 60)
    return shown ++ " " ++ shown

/-- A written moment as it is shown. The date and the time are divided by a letter or a blank; what
is missing is filled up with the start of time. -/
def shown? (t : Text) : Option Text :=
  let t := t.map fun b =>
    if b = Text.byte ' ' ∨ b = Text.byte 't' then Text.byte 'T'
    else if b = Text.byte 'z' then Text.byte 'Z'
    else b
  match date? t with
  | some (day, []) => some (day ++ " 00:00:00 +0000 date-local")
  | some (day, rest) => do
    let (clock, rest) ← time? (← after? 'T' rest)
    let zone : Text ← if rest.isEmpty then some ("+0000 datetime-local" : Text) else offset? rest
    return day ++ " " ++ clock ++ " " ++ zone
  | none =>
    match time? t with
    | some (clock, []) => some ("0000-01-01 " ++ clock ++ " +0000 time-local")
    | _ => none

end Bareword.Moment
