import Bareword.Json
import Bareword.Registry.Basic
import Bareword.Token.Basic
import Bareword.Tree.Basic

/-! # Tokens, trees and commands as JSON

What the command line prints when it is asked for JSON.
-/

namespace Bareword
set_option autoImplicit false
open Json (field field? textField)

def Token.toJson (t : Token) : Json :=
  .object (field "kind" (.text t.kind.name) ++ field "text" (.text t.text) ++
    field "start" (.integer t.start) ++ field "end" (.integer t.stop))

def Span.toJson (s : Span) : Json :=
  .object (field "Start" (.integer s.start) ++ field "End" (.integer s.stop))

/-- A tree as JSON. Fields that say nothing are left out. -/
def Tree.Node.toJson : Tree.Node → Json
  | { kind, span, text, code, message, children } =>
    .object (field "kind" (.text kind.name) ++ field "span" span.toJson ++
      textField "text" text ++ textField "code" code ++ textField "message" message ++
      if children.isEmpty then [] else field "children" (.list (childrenJson children)))
where
  /-- Trees as JSON. -/
  childrenJson : List Tree.Node → List Json
    | [] => []
    | n :: rest => n.toJson :: childrenJson rest

def Setting.toJson : Setting → Json
  | .flag b => .bool b
  | .text t => .text t
  | .integer n => .integer n
  | .number x => .number x
  | .other shown => .text shown

def Parameter.toJson (p : Parameter) : Json :=
  .object (field "name" (.text p.name) ++ field "type" (.text p.type) ++
    textField "description" p.description ++
    field? "named" (if p.named then some (.bool true) else none) ++
    field? "default" (p.default.map Setting.toJson))

/-- A list of commands or parameters as JSON: null if nothing is listed. -/
def Json.listOrNull (isListed : Bool) (items : List Json) : Json :=
  if isListed then .list items else .null

def Command.toJson (c : Command) : Json :=
  .object (field "command" (.text c.name) ++ textField "description" c.description ++
    textField "execute" c.execute ++
    field "args" (.listOrNull (!c.params.isEmpty || c.listsNone) (c.params.map Parameter.toJson)))

/-- The answer of a look-up as JSON. -/
def Registry.Match.toJson (m : Registry.Match) : Json :=
  .object (field? "exact" (m.exact.map Command.toJson) ++
    field "partial" (.listOrNull (!m.starting.isEmpty) (m.starting.map Command.toJson)))

end Bareword
