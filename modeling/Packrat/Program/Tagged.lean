import Packrat.Plain.Basic
import Packrat.Program.Node
set_option autoImplicit false
set_option relaxedAutoImplicit false

/-!
# The tagged form

The tagged form of a tree is plain data in which a node is a record whose keys tell its kind. A
program is the bare list of its statements. The sign of a number stands before its digits, and only
if there is one.

## Main definitions

* `Packrat.Program.Node.tagged` — the tagged form.
-/

namespace Packrat.Program.Node

/-- The entry for the sign of a number. -/
def signEntry : Option String → List (String × Plain)
  | none => []
  | some sign => [("sign", .text sign)]

/-- The tagged form of a tree. -/
def tagged : Node → Plain
  | .comment text => .record [("comment", .text text)]
  | .nil => .record [("nil", .text "nil")]
  | .bool true => .record [("true", .text "true")]
  | .bool false => .record [("false", .text "false")]
  | .integer digits sign => .record (signEntry sign ++ [("integer", .text digits)])
  | .decimal digits sign => .record (signEntry sign ++ [("decimal", .text digits)])
  | .character char => .record [("character", .text char)]
  | .string text => .record [("string", .text text)]
  | .regex pattern => .record [("regex", .text pattern)]
  | .keyValue key value => .record [("key", key.tagged), ("value", value.tagged)]
  | .range start stop exclusivity =>
    .record [("start", start.tagged), ("end", stop.tagged),
      ("exclusivity", exclusivity.elim .null .text)]
  | .hash pairs => .record [("hash", .list (taggedAll pairs))]
  | .list items => .record [("list", .list (taggedAll items))]
  | .program statements => .list (taggedAll statements)
where
  /-- The tagged forms of several trees. -/
  taggedAll : List Node → List Plain
    | [] => []
    | n :: ns => n.tagged :: taggedAll ns

end Packrat.Program.Node
