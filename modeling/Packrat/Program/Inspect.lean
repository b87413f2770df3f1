import Packrat.Program.Node
set_option autoImplicit false
set_option relaxedAutoImplicit false

/-!
# Trees in messages

Where a message has to show a tree, it shows the kind of the node and its fields by name; a field
with several nodes stands in parentheses, and a single node there keeps a comma behind it.

## Main definitions

* `Packrat.Program.Node.inspect` — how a tree is shown in a message.
-/

namespace Packrat.Program.Node

/-- How an optional text is shown. -/
def inspectOption : Option String → String
  | none => "None"
  | some s => quote s

/-- How a row of nodes is shown, given how each of them is. -/
def inspectRow : List String → String
  | [] => "()"
  | [s] => "(" ++ s ++ ",)"
  | ss => "(" ++ ", ".intercalate ss ++ ")"

/-- How a tree is shown in a message. -/
def inspect : Node → String
  | .comment text => "Comment(text=" ++ quote text ++ ")"
  | .nil => "Nil()"
  | .bool value => "Bool(value=" ++ (if value then "True" else "False") ++ ")"
  | .integer digits sign =>
    "Integer(digits=" ++ quote digits ++ ", sign=" ++ inspectOption sign ++ ")"
  | .decimal digits sign =>
    "Decimal(digits=" ++ quote digits ++ ", sign=" ++ inspectOption sign ++ ")"
  | .character char => "Character(char=" ++ quote char ++ ")"
  | .string text => "StringLit(text=" ++ quote text ++ ")"
  | .regex pattern => "Regex(pattern=" ++ quote pattern ++ ")"
  | .keyValue key value => "KeyValue(key=" ++ key.inspect ++ ", value=" ++ value.inspect ++ ")"
  | .range start stop exclusivity =>
    "Range(start=" ++ start.inspect ++ ", end=" ++ stop.inspect ++ ", exclusivity="
      ++ inspectOption exclusivity ++ ")"
  | .hash pairs => "Hash(pairs=" ++ inspectRow (inspectAll pairs) ++ ")"
  | .list items => "List(items=" ++ inspectRow (inspectAll items) ++ ")"
  | .program statements => "Program(statements=" ++ inspectRow (inspectAll statements) ++ ")"
where
  /-- How the nodes of a row are shown. -/
  inspectAll : List Node → List String
    | [] => []
    | n :: ns => n.inspect :: inspectAll ns

/-- Nodes are shown in messages by their inspected form. -/
instance : Inspect Node := ⟨inspect⟩

end Packrat.Program.Node
