import Bareword.Text.Basic

/-! # Kinds of tokens

The terminals of the language, the reserved words and operators among them, and sets of kinds.

* `Token.Kind`: the forty kinds, with their display names.
* `Token.Kind.ofKeyword?`, `Token.Kind.ofOperator?`: the kind that a text spells.
* `Token.KindSet`: a set of kinds, which says what a parser can accept at some point.
-/

namespace Bareword.Token
set_option autoImplicit false

inductive Kind where
  | illegal
  | eof
  | newline
  | semicolon
  | colon
  | openParen
  | closeParen
  | pipe
  | dot
  | number
  | boolean
  | regex
  | quote
  | identifier
  | assignable
  | beforeDot
  | argName
  | word
  | kwFn
  | kwEnd
  | kwIf
  | kwElsif
  | kwElse
  | kwAnd
  | kwOr
  | plus
  | minus
  | star
  | slash
  | eq
  | notEq
  | lt
  | gt
  | ltEq
  | gtEq
  | fragment
  | escape
  | interpName
  | interpOpen
  | fragmentEnd
  deriving DecidableEq, Repr, Inhabited

namespace Kind

/-- Every kind, in the order of their numbers. -/
def all : List Kind :=
  [.illegal, .eof, .newline, .semicolon, .colon, .openParen, .closeParen, .pipe, .dot, .number,
    .boolean, .regex, .quote, .identifier, .assignable, .beforeDot, .argName, .word, .kwFn, .kwEnd,
    .kwIf, .kwElsif, .kwElse, .kwAnd, .kwOr, .plus, .minus, .star, .slash, .eq, .notEq, .lt, .gt,
    .ltEq, .gtEq, .fragment, .escape, .interpName, .interpOpen, .fragmentEnd]

def index (k : Kind) : Nat := k.ctorIdx

/-- The kind with a given number. -/
def ofIndex? (n : Nat) : Option Kind := all[n]?

/-- The name under which a kind is shown. -/
def name : Kind → String
  | .illegal => "ILLEGAL"
  | .eof => "EOF"
  | .newline => "NEWLINE"
  | .semicolon => ";"
  | .colon => ":"
  | .openParen => "("
  | .closeParen => ")"
  | .pipe => "|"
  | .dot => "."
  | .number => "NUMBER"
  | .boolean => "BOOLEAN"
  | .regex => "REGEX"
  | .quote => "QUOTE"
  | .identifier => "IDENTIFIER"
  | .assignable => "ASSIGNABLE_IDENTIFIER"
  | .beforeDot => "IDENTIFIER_BEFORE_DOT"
  | .argName => "NAMED_ARG_PREFIX"
  | .word => "WORD"
  | .kwFn => "fn"
  | .kwEnd => "end"
  | .kwIf => "if"
  | .kwElsif => "elsif"
  | .kwElse => "else"
  | .kwAnd => "and"
  | .kwOr => "or"
  | .plus => "+"
  | .minus => "-"
  | .star => "*"
  | .slash => "/"
  | .eq => "="
  | .notEq => "!="
  | .lt => "<"
  | .gt => ">"
  | .ltEq => "<="
  | .gtEq => ">="
  | .fragment => "FRAGMENT"
  | .escape => "ESCAPE"
  | .interpName => "INTERP_IDENT"
  | .interpOpen => "INTERP_OPEN"
  | .fragmentEnd => "FRAGMENT_END"

/-- The kind with a given display name. -/
def ofName? (s : String) : Option Kind := all.find? (·.name == s)

/-- The name shown for a number that no kind has. -/
def unknownName : String := "UNKNOWN"

/-- Whether the kind is a reserved word. -/
def isKeyword (k : Kind) : Bool := Kind.kwFn.index ≤ k.index && k.index ≤ Kind.kwOr.index

/-- Whether the kind is a symbolic binary operator. -/
def isOperator (k : Kind) : Bool := Kind.plus.index ≤ k.index && k.index ≤ Kind.gtEq.index

/-- The reserved words. -/
def keywords : List (Text × Kind) :=
  [("fn", .kwFn), ("end", .kwEnd), ("if", .kwIf), ("elsif", .kwElsif), ("else", .kwElse),
    ("and", .kwAnd), ("or", .kwOr), ("true", .boolean), ("false", .boolean)]

/-- The kind of the reserved word that a text spells. -/
def ofKeyword? (t : Text) : Option Kind := keywords.lookup t

/-- The spellings of the operators. -/
def operators : List (Text × Kind) :=
  [("+", .plus), ("-", .minus), ("*", .star), ("/", .slash), ("=", .eq), ("!=", .notEq),
    ("<", .lt), (">", .gt), ("<=", .ltEq), (">=", .gtEq), ("|", .pipe)]

/-- The kind of the operator that a text spells. -/
def ofOperator? (t : Text) : Option Kind := operators.lookup t

end Kind

/-- A set of kinds, one bit for each. -/
structure KindSet where
  mask : Nat
  deriving DecidableEq, Repr, Hashable, Inhabited

namespace KindSet

def empty : KindSet := ⟨0⟩

def has (s : KindSet) (k : Kind) : Bool := s.mask.testBit k.index

def union (s t : KindSet) : KindSet := ⟨s.mask ||| t.mask⟩

def diff (s t : KindSet) : KindSet := ⟨s.mask ^^^ (s.mask &&& t.mask)⟩

def of (ks : List Kind) : KindSet := ks.foldl (fun s k => ⟨s.mask ||| (1 <<< k.index)⟩) empty

def insertAll (s : KindSet) (ks : List Kind) : KindSet := s.union (of ks)

def eraseAll (s : KindSet) (ks : List Kind) : KindSet := s.diff (of ks)

instance : Union KindSet := ⟨union⟩

/-- The members, in the order of their numbers. -/
def toList (s : KindSet) : List Kind := Kind.all.filter s.has

/-- The members between braces. -/
def render (s : KindSet) : Text :=
  "\x7b" ++ Text.join " " (s.toList.map fun k => Text.ofString k.name) ++ "\x7d"

theorem has_union (s t : KindSet) (k : Kind) : (s ∪ t).has k = (s.has k || t.has k) := by
  simp [Union.union, union, has, Nat.testBit_or]

theorem has_diff (s t : KindSet) (k : Kind) : (s.diff t).has k = (s.has k && !t.has k) := by
  simp only [diff, has, Nat.testBit_xor, Nat.testBit_and]
  cases s.mask.testBit k.index <;> cases t.mask.testBit k.index <;> rfl

end KindSet
end Bareword.Token
