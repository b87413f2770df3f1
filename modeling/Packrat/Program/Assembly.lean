import Packrat.Program.Node
import Packrat.Value.Builder
set_option autoImplicit false
set_option relaxedAutoImplicit false

/-!
# Assembling program trees

The grammar of programs captures the parts of a tree as fields, and one builder per kind of node
puts them together. A builder refuses fields that its kind of node does not have.

## Main definitions

* `Packrat.Program.Assembly` — the builders.
-/

namespace Packrat.Program

/-- The fields of a node that is yet to be built. -/
abbrev Fields := List (String × Value Node)

/-- The nodes of a list that holds nothing else. -/
def nodes? : List (Value Node) → Option (List Node)
  | [] => some []
  | .object n :: vs => (n :: ·) <$> nodes? vs
  | _ => none

namespace Assembly

/-- The builder of the nodes that the given function makes of their fields. -/
def ofFields (name : String) (make : Fields → Option Node) : Builder Node where
  name := name
  make
    | .named fields =>
      match make fields with
      | some node => .ok (some (.object node))
      | none => .error ⟨name⟩
    | .single _ => .error ⟨name⟩

/-- The builder of a kind of node without fields. -/
def constant (name : String) (node : Node) : Builder Node := ofFields name fun
  | [] => some node
  | _ => none

/-- The builder of a kind of node with one field of text. -/
def ofText (name field : String) (make : String → Node) : Builder Node := ofFields name fun
  | [(f, .text s)] => if f = field then some (make s) else none
  | _ => none

/-- The builder of a kind of node with one field of nodes. -/
def ofNodes (name field : String) (make : List Node → Node) : Builder Node := ofFields name fun
  | [(f, .items vs)] => if f = field then make <$> nodes? vs else none
  | _ => none

/-- The builder of a kind of number. -/
def ofNumber (name : String) (make : String → Option String → Node) : Builder Node :=
  ofFields name fun
    | [("digits", .text digits)] => some (make digits none)
    | [("sign", .text sign), ("digits", .text digits)] => some (make digits (some sign))
    | _ => none

/-- The builder of pairs of a key and a value. -/
def keyValue : Builder Node := ofFields "KeyValue" fun
  | [("key", .object key), ("value", .object value)] => some (.keyValue key value)
  | _ => none

/-- The builder of ranges. -/
def range : Builder Node := ofFields "Range" fun
  | [("start", .object start), ("end", .object stop)] => some (.range start stop none)
  | [("start", .object start), ("exclusivity", .text point), ("end", .object stop)] =>
    some (.range start stop (some point))
  | _ => none

end Assembly

end Packrat.Program
