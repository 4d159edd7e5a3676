import Bareword.Token.Basic
import Bareword.Tree.Kind

/-! # Concrete syntax trees

A tree keeps keywords, operators and colons as leaves, and it holds an error node wherever the
source did not fit the grammar.

* `Node.leaf`, `Node.branch`, `Node.fault`: the node of a token, of some children, of a fault.
* `Node.append`: a node with more children, its span widened to cover them.
* `Node.preorder`, `Node.errors`: the nodes of a tree and the error nodes among them.
* `Node.dump`: a tree as text, one node to a line.
-/

namespace Bareword.Tree
set_option autoImplicit false

/-- A node: leaves carry their source text, and only error nodes carry a code and a message. -/
structure Node where
  kind : Kind
  span : Span
  text : Text := []
  code : Text := []
  message : Text := []
  children : List Node := []
  deriving Repr, Inhabited, BEq

namespace Node

/-! ## Building -/

/-- The leaf of a token. -/
def leaf (kind : Kind) (tok : Token) : Node := { kind, span := tok.span, text := tok.text }

/-- The span from the start of the first node to the end of the last one. -/
def extent (children : List Node) : Span :=
  match children.head?, children.getLast? with
  | some a, some b => ⟨a.span.start, b.span.stop⟩
  | _, _ => .zero

/-- The node of some children, which spans them. -/
def branch (kind : Kind) (children : List Node) : Node :=
  { kind, span := extent children, children }

/-- The error node of a span. -/
def fault (code : Text) (span : Span) (text message : Text) : Node :=
  { kind := .error, span, text, code, message }

/-- The node with one more child. The first child of a node without a span gives it its own. -/
def push (n child : Node) : Node :=
  { n with
    span := if n.children.isEmpty && n.span == .zero then child.span else n.span.cover child.span
    children := n.children ++ [child] }

/-- The node with more children. -/
def append (n : Node) (children : List Node) : Node := children.foldl push n

/-! ## Children -/

def isLeaf (n : Node) : Bool := n.children.isEmpty

def child? (n : Node) (i : Int) : Option Node := if i < 0 then none else n.children[i.toNat]?

def first? (n : Node) (kind : Kind) : Option Node := n.children.find? (·.kind == kind)

def ofKind (n : Node) (kind : Kind) : List Node := n.children.filter (·.kind == kind)

/-- The children that are more than punctuation. -/
def significant (n : Node) : List Node := n.children.filter fun c => !c.kind.isPunctuation

/-! ## Walking -/

/-- The node and all nodes below it, each before its children. -/
def preorder (n : Node) : List Node :=
  match n with
  | ⟨_, _, _, _, _, children⟩ => n :: preorderAll children
where
  /-- The nodes of several trees, one tree after the other. -/
  preorderAll : List Node → List Node
    | [] => []
    | c :: cs => c.preorder ++ preorderAll cs

/-- The number of levels of a tree. -/
def height (n : Node) : Nat :=
  match n with
  | ⟨_, _, _, _, _, children⟩ => heightAll children + 1
where
  /-- The number of levels of the highest of several trees. -/
  heightAll : List Node → Nat
    | [] => 0
    | c :: cs => max c.height (heightAll cs)

/-- The nodes that a walk meets that does not go below nodes of the pruned kinds. -/
def walk (prune : List Kind) (n : Node) : List Node :=
  match n with
  | ⟨kind, _, _, _, _, children⟩ =>
    if prune.contains kind then [n] else n :: walkAll children
where
  /-- The nodes that walks of several trees meet. -/
  walkAll : List Node → List Node
    | [] => []
    | c :: cs => c.walk prune ++ walkAll cs

/-- The error nodes, in the order of the source. -/
def errors (n : Node) : List Node := n.preorder.filter (·.kind == .error)

def hasErrors (n : Node) : Bool := n.preorder.any (·.kind == .error)

/-! ## Text -/

/-- The lines of a node at a depth: two blanks for each level, then the kind, and for a leaf the
text. -/
def lines (depth : Nat) (n : Node) : List Text :=
  match n with
  | ⟨kind, _, text, _, _, children⟩ =>
    let indent := Text.spaces (2 * depth)
    match children with
    | [] => [Text.trimEnd (· == Text.byte ' ') (indent ++ kind.text ++ " " ++ text)]
    | c :: cs => (indent ++ kind.text) :: linesAll (depth + 1) (c :: cs)
where
  /-- The lines of several nodes. -/
  linesAll (depth : Nat) : List Node → List Text
    | [] => []
    | c :: cs => c.lines depth ++ linesAll depth cs

/-- A tree as text. The program node is left out, so that its statements start at the margin. -/
def dump (n : Node) : Text :=
  Text.join "\n" (if n.kind = .program then n.children.flatMap (lines 0) else lines 0 n)

end Node
end Bareword.Tree
