import Bareword.Text.Quoted

/-! # Flags

The flags of a command line. A flag has a long name and perhaps a letter. A switch stands alone; any
other flag takes the next argument as its value, unless a value is attached to it. Flags and other
words may be mixed, and two dashes end the flags.

* `Flag`: a flag.
* `Flags.parse`: the flags and the words of some arguments.
* `Flags.words`: the words alone, as far as they can be told before the flags are known.
-/

namespace Bareword.Cli
set_option autoImplicit false

structure Flag where
  name : Text
  letter : Option UInt8 := none
  /-- Whether the flag stands alone. -/
  isSwitch : Bool := false
  deriving DecidableEq, Repr

/-- The flag as messages show it. -/
def Flag.shown (f : Flag) : Text :=
  match f.letter with
  | none => "--" ++ f.name
  | some l => [Text.byte '-', l] ++ ", --" ++ f.name

/-- The byte that flags start with. -/
def dash : UInt8 := Text.byte '-'

/-- The byte between a flag and a value that is attached to it. -/
def equalsSign : UInt8 := Text.byte '='

/-- What the arguments of a command come to: the values of flags, the latest first, and the words.
-/
structure Parsed where
  values : List (Text × Text) := []
  words : List Text := []
  deriving DecidableEq, Repr

namespace Parsed

/-- The value of a flag, if it was given. -/
def value? (p : Parsed) (name : Text) : Option Text := p.values.lookup name

def onTexts : List Text := ["1", "t", "T", "TRUE", "true", "True"]

def offTexts : List Text := ["0", "f", "F", "FALSE", "false", "False"]

def isOn (p : Parsed) (name : Text) : Bool := ((p.value? name).map onTexts.contains).getD false

/-- Gives a flag a value; a switch takes only texts that switch it on or off. -/
def set (p : Parsed) (f : Flag) (value : Text) : Except Text Parsed :=
  if f.isSwitch ∧ ¬ (onTexts ++ offTexts).contains value then
    .error ("invalid argument " ++ Text.quoted value ++ " for " ++ Text.quoted f.shown ++
      " flag: strconv.ParseBool: parsing " ++ Text.quoted value ++ ": invalid syntax")
  else .ok { p with values := (f.name, value) :: p.values }

end Parsed

abbrev Flags := List Flag

namespace Flags

def byName? (fs : Flags) (name : Text) : Option Flag := fs.find? (·.name == name)

def byLetter? (fs : Flags) (letter : UInt8) : Option Flag := fs.find? (·.letter == some letter)

/-- Splits a text at its first equals sign. -/
def splitValue (t : Text) : Text × Option Text :=
  match Text.find? [equalsSign] t with
  | none => (t, none)
  | some i => (t.take i, some (t.drop (i + 1)))

/-- Reads a flag by its long name. `body` is what follows the two dashes, `next` the argument after
it. The answer says whether `next` was used. -/
def parseLong (fs : Flags) (p : Parsed) (body : Text) (next : Option Text) :
    Except Text (Parsed × Bool) :=
  let arg : Text := "--" ++ body
  if body.head? = some dash ∨ body.head? = some equalsSign then
    .error ("bad flag syntax: " ++ arg)
  else
    let (name, attached) := splitValue body
    match fs.byName? name with
    | none => .error ("unknown flag: --" ++ name)
    | some f =>
      match attached, next with
      | some value, _ => (p.set f value).map fun p => (p, false)
      | none, next =>
        if f.isSwitch then (p.set f "true").map fun p => (p, false)
        else
          match next with
          | some value => (p.set f value).map fun p => (p, true)
          | none => .error ("flag needs an argument: " ++ arg)

/-- Reads flags by their letters. A switch may be followed by further letters; the first other flag
takes what is left as its value, or else the argument `next`. The answer says whether `next` was
used. -/
def parseLetters (fs : Flags) (next : Option Text) : Parsed → Text → Except Text (Parsed × Bool)
  | p, [] => .ok (p, false)
  | p, c :: rest =>
    match fs.byLetter? c with
    | none =>
      .error ("unknown shorthand flag: " ++ Text.quotedRune c.toNat ++ " in -" ++ (c :: rest))
    | some f =>
      if rest.head? = some equalsSign ∧ 1 < rest.length then
        (p.set f (rest.drop 1)).map fun p => (p, false)
      else if f.isSwitch then
        match p.set f "true" with
        | .error e => .error e
        | .ok p => parseLetters fs next p rest
      else if ¬ rest.isEmpty then (p.set f rest).map fun p => (p, false)
      else
        match next with
        | some value => (p.set f value).map fun p => (p, true)
        | none =>
          .error ("flag needs an argument: " ++ Text.quotedRune c.toNat ++ " in -" ++ (c :: rest))

/-- Reads one flag, by its name or by its letters. -/
def parseFlag (fs : Flags) (p : Parsed) (arg : Text) (next : Option Text) :
    Except Text (Parsed × Bool) :=
  if arg[1]? = some dash then fs.parseLong p (arg.drop 2) next
  else fs.parseLetters next p (arg.drop 1)

/-- Whether an argument is a flag, or the two dashes that end the flags. A single dash is a word. -/
def isFlag (arg : Text) : Bool := arg.head? == some dash && 1 < arg.length

/-- The argument that ends the flags. -/
def endOfFlags : Text := "--"

/-- The flags and the words of some arguments, after those of `p`. The first bad flag is an error.
-/
def parseFrom (fs : Flags) : Parsed → List Text → Except Text Parsed
  | p, [] => .ok p
  | p, arg :: rest =>
    if ¬ isFlag arg then parseFrom fs { p with words := p.words ++ [arg] } rest
    else if arg = endOfFlags then .ok { p with words := p.words ++ rest }
    else
      match rest with
      | [] => (fs.parseFlag p arg none).map (·.1)
      | next :: rest' =>
        match fs.parseFlag p arg (some next) with
        | .error e => .error e
        | .ok (p, true) => parseFrom fs p rest'
        | .ok (p, false) => parseFrom fs p (next :: rest')

def parse (fs : Flags) (args : List Text) : Except Text Parsed := fs.parseFrom {} args

/-- Whether an argument is a flag that takes the next argument as its value. A flag that is not
known counts as one. -/
def takesNext (fs : Flags) (arg : Text) : Bool :=
  !arg.contains equalsSign &&
    if ("--" : Text).isPrefixOf arg then !((fs.byName? (arg.drop 2)).any (·.isSwitch))
    else
      arg.head? == some dash && arg.length == 2 &&
        !((arg[1]?.bind fs.byLetter?).any (·.isSwitch))

/-- The first word of some arguments, before all flags are known. A flag takes the next argument
with it, if there is one more after that. -/
def firstWord? (fs : Flags) : List Text → Option Text
  | [] => none
  | arg :: rest =>
    if arg = endOfFlags then none
    else if fs.takesNext arg then
      match rest with
      | _ :: next :: more => firstWord? fs (next :: more)
      | _ => none
    else if arg.isEmpty ∨ arg.head? = some dash then firstWord? fs rest
    else some arg

/-- The arguments without the first one that is a given word. -/
def dropWord (fs : Flags) (word : Text) : List Text → List Text
  | [] => []
  | arg :: rest =>
    if arg = endOfFlags then arg :: rest
    else if fs.takesNext arg then
      match rest with
      | next :: more => arg :: next :: dropWord fs word more
      | [] => [arg]
    else if arg = word ∧ arg.head? ≠ some dash then rest
    else arg :: dropWord fs word rest

end Flags
end Bareword.Cli
