import Bareword.Toml.Scalar

/-! # TOML documents as they are written

A document is a sequence of statements: headers of tables and keys with values. Here its text is
taken apart; what the statements mean together is said elsewhere.

* `Toml.Written`: a value as it is written.
* `Toml.Statement`: one statement.
* `Toml.statements?`: the statements of a text.
-/

namespace Bareword.Toml
set_option autoImplicit false

/-- A value as it is written. -/
inductive Written where
  | scalar (v : Toml)
  | list (items : List Written)
  /-- A table on one line: keys, each a path, and values. -/
  | table (fields : List (List Text × Written))
  deriving Inhabited

/-- A statement. Keys are paths of names. -/
inductive Statement where
  /-- The header of a table. -/
  | open_ (key : List Text)
  /-- The header of one more table of a list. -/
  | append (key : List Text)
  | assign (key : List Text) (value : Written)
  deriving Inhabited

/-! ## Blanks -/

/-- A text without the blanks at its front. -/
def skipBlanks (t : Text) : Text := t.dropWhile isBlank

/-- What follows a comment up to the end of its line; other texts are left as they are. -/
def skipComment : Text → Text
  | [] => []
  | b :: t => if b = Text.byte '#' then t.dropWhile fun c => !isLineEnd c else b :: t

/-- A text without the blanks, line ends and comments at its front. -/
def skipLines : Nat → Text → Text
  | 0, t => t
  | fuel + 1, t =>
    let rest := skipComment (t.dropWhile isGap)
    if rest.length = t.length then t else skipLines fuel rest

/-- What follows the end of a statement: blanks, perhaps a comment, then a line end or the end of
the text. -/
def endStatement? (t : Text) : Option Text :=
  match skipComment (skipBlanks t) with
  | [] => some []
  | b :: rest => if isLineEnd b then some (b :: rest) else none

/-- What follows a byte at the front of a text. -/
def after? (b : UInt8) : Text → Option Text
  | [] => none
  | c :: t => if c = b then some t else none

/-! ## Keys -/

/-- Whether a name may hold a byte without quotes. -/
def isBare (b : UInt8) : Bool :=
  (Text.byte 'a' ≤ b && b ≤ Text.byte 'z') || (Text.byte 'A' ≤ b && b ≤ Text.byte 'Z') ||
    Text.isDigit b || b == Text.byte '_' || b == Text.byte '-'

/-- A single name of a key. -/
def name? (t : Text) : Option (Text × Text) :=
  match t with
  | [] => none
  | b :: rest =>
    if b = Text.byte '"' then basicText? rest
    else if b = Text.byte '\'' then literalText? rest
    else if isBare b then some (t.takeWhile isBare, t.dropWhile isBare)
    else none

/-- A key: names with points between them. Blanks may stand around each name. -/
def key? : Nat → Text → Option (List Text × Text)
  | 0, _ => none
  | fuel + 1, t => do
    let (name, rest) ← name? (skipBlanks t)
    let rest := skipBlanks rest
    match after? (Text.byte '.') rest with
    | none => return ([name], rest)
    | some rest =>
      let (names, rest) ← key? fuel rest
      return (name :: names, rest)

/-! ## Values -/

mutual

/-- A value at the front of a text. -/
def readValue? : Nat → Text → Option (Written × Text)
  | 0, _ => none
  | fuel + 1, t =>
    let t := skipBlanks t
    match after? (Text.byte '[') t, after? (Text.byte '\x7b') t with
    | some rest, _ => (readItems? fuel rest).map fun (items, rest) => (.list items, rest)
    | none, some rest => (readFields? fuel rest).map fun (fields, rest) => (.table fields, rest)
    | none, none => (scalar? t).map fun (v, rest) => (.scalar v, rest)

/-- The items of a list up to its end. A comma may stand after the last item. -/
def readItems? : Nat → Text → Option (List Written × Text)
  | 0, _ => none
  | fuel + 1, t =>
    let t := skipLines t.length t
    match after? (Text.byte ']') t with
    | some rest => some ([], rest)
    | none =>
      match readValue? fuel t with
      | none => none
      | some (item, rest) =>
        let rest := skipLines rest.length rest
        match after? (Text.byte ',') rest, after? (Text.byte ']') rest with
        | some rest, _ => (readItems? fuel rest).map fun (items, rest) => (item :: items, rest)
        | none, some rest => some ([item], rest)
        | none, none => none

/-- The fields of a table on one line up to its end. -/
def readFields? : Nat → Text → Option (List (List Text × Written) × Text)
  | 0, _ => none
  | fuel + 1, t =>
    let t := skipBlanks t
    match after? (Text.byte '\x7d') t with
    | some rest => some ([], rest)
    | none => readMoreFields? fuel t

/-- One field or more of a table on one line up to its end. -/
def readMoreFields? : Nat → Text → Option (List (List Text × Written) × Text)
  | 0, _ => none
  | fuel + 1, t =>
    match key? t.length t with
    | none => none
    | some (key, rest) =>
      match after? (Text.byte '=') rest with
      | none => none
      | some rest =>
        match readValue? fuel rest with
        | none => none
        | some (value, rest) =>
          let rest := skipBlanks rest
          match after? (Text.byte ',') rest, after? (Text.byte '\x7d') rest with
          | some rest, _ =>
            (readMoreFields? fuel rest).map fun (fields, rest) => ((key, value) :: fields, rest)
          | none, some rest => some ([(key, value)], rest)
          | none, none => none

end

/-! ## Statements -/

/-- Steps enough to read any text: no more than four are taken at one place. -/
def enough (t : Text) : Nat := 4 * t.length + 4

/-- A statement at the front of a text, without its end. -/
def statement? (t : Text) : Option (Statement × Text) :=
  if ("[[" : Text).isPrefixOf t then do
    let (key, rest) ← key? t.length (t.drop 2)
    let rest ← after? (Text.byte ']') (← after? (Text.byte ']') rest)
    return (.append key, rest)
  else if ("[" : Text).isPrefixOf t then do
    let (key, rest) ← key? t.length (t.drop 1)
    let rest ← after? (Text.byte ']') rest
    return (.open_ key, rest)
  else do
    let (key, rest) ← key? t.length t
    let rest ← after? (Text.byte '=') rest
    let (value, rest) ← readValue? (enough rest) rest
    return (.assign key value, rest)

/-- The statements of a text that holds no characters that are not allowed. -/
def readStatements? : Nat → Text → Option (List Statement)
  | 0, _ => none
  | fuel + 1, t =>
    match skipLines t.length t with
    | [] => some []
    | t => do
      let (s, rest) ← statement? t
      let rest ← endStatement? rest
      return s :: (← readStatements? fuel rest)

/-! ## Characters -/

/-- Whether a text holds no control characters but tabs and line ends. A carriage return belongs to
a line feed. -/
def allowed : Text → Bool
  | [] => true
  | b :: t =>
    (if b = Text.byte '\r' then t.head? == some (Text.byte '\n')
      else b == Text.byte '\t' || b == Text.byte '\n' || (0x20 ≤ b && b != 0x7F)) && allowed t

/-- A text without the mark of its encoding. -/
def dropMark : Text → Text
  | 0xFF :: 0xFE :: t => t
  | 0xFE :: 0xFF :: t => t
  | 0xEF :: 0xBB :: 0xBF :: t => t
  | t => t

/-- The statements of a text. -/
def statements? (t : Text) : Option (List Statement) :=
  let t := dropMark t
  if Text.isValid t && allowed t then readStatements? (t.length + 1) t else none

end Bareword.Toml
