import Packrat.Program.Node
set_option autoImplicit false
set_option relaxedAutoImplicit false

/-!
# Outlines

An outline shows a tree line by line: a node on a line of its own, what is in it below, indented by
two more spaces. The two parts of a pair and the two ends of a range carry labels. Texts are quoted;
the pattern of a regular expression stands between slashes as it is.

## Main definitions

* `Packrat.Program.Node.outline` — the lines of an outline.
* `Packrat.Program.Node.outlineText` — the lines as one text.
-/

namespace Packrat.Program.Node

/-- What a line says about a node itself. -/
def headline : Node → String
  | .comment text => "Comment " ++ quote text
  | .nil => "Nil"
  | .bool value => if value then "Bool true" else "Bool false"
  | .integer digits sign => "Integer " ++ sign.getD "" ++ digits
  | .decimal digits sign => "Decimal " ++ sign.getD "" ++ digits
  | .character char => "Character " ++ quote char
  | .string text => "String " ++ quote text
  | .regex pattern => "Regex /" ++ pattern ++ "/"
  | .keyValue _ _ => "KeyValue"
  | .range _ _ none => "Range .."
  | .range _ _ (some _) => "Range ..."
  | .hash _ => "Hash"
  | .list _ => "List"
  | .program _ => "Program"

/-- The lines of an outline at the given level of indentation, where the first line carries a
label. -/
def outlineAt (level : Nat) (label : String) (n : Node) : List String :=
  let line := String.ofList (List.replicate (2 * level) ' ') ++ label ++ n.headline
  match n with
  | .keyValue key value =>
    line :: (key.outlineAt (level + 1) "key: " ++ value.outlineAt (level + 1) "value: ")
  | .range start stop _ =>
    line :: (start.outlineAt (level + 1) "start: " ++ stop.outlineAt (level + 1) "end: ")
  | .hash nodes | .list nodes | .program nodes => line :: outlineAll (level + 1) nodes
  | .comment _ | .nil | .bool _ | .integer _ _ | .decimal _ _ | .character _ | .string _
  | .regex _ => [line]
where
  /-- The lines of the outlines of several trees, one below the other. -/
  outlineAll (level : Nat) : List Node → List String
    | [] => []
    | n :: ns => n.outlineAt level "" ++ outlineAll level ns

/-- The lines of an outline. -/
def outline (n : Node) : List String := n.outlineAt 0 ""

/-- The lines of an outline as one text. -/
def outlineText (n : Node) : String := "\n".intercalate n.outline

end Packrat.Program.Node
