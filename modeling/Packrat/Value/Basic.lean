import Packrat.Text.Quoted
set_option autoImplicit false
set_option relaxedAutoImplicit false

/-!
# Values of a match

Matching a rule may produce a value. It is text, a list, a group of named fields, or an object
that the grammar's own builders make; `α` is the type of those objects. A match that produces
nothing is told apart from one that produces an empty list, so a match carries an
`Option (Value α)`.

## Main definitions

* `Packrat.Value` — the values.
* `Packrat.Inspect` — objects that can be shown in a message.
* `Packrat.Value.inspect` — how a value is shown in a message.
-/

namespace Packrat

/-- What matching a rule produces. -/
inductive Value (α : Type) where
  | text (text : String)
  | items (items : List (Value α))
  /-- Named values, in the order in which their names first came up. -/
  | fields (fields : List (String × Value α))
  | object (object : α)

/-- The empty text is a value. -/
instance {α : Type} : Inhabited (Value α) := ⟨.text ""⟩

/-- Objects that can be shown in a message. -/
class Inspect (α : Type) where
  /-- How an object is shown. -/
  inspect : α → String

namespace Value

variable {α : Type}

/-- How a value is shown in a message: text is quoted, a list stands in brackets and fields in
braces. -/
def inspect [Inspect α] : Value α → String
  | .text s => quote s
  | .items vs => "[" ++ ", ".intercalate (inspectAll vs) ++ "]"
  | .fields fs => "\x7b" ++ ", ".intercalate (inspectFields fs) ++ "\x7d"
  | .object a => Inspect.inspect a
where
  /-- How the members of a list are shown. -/
  inspectAll : List (Value α) → List String
    | [] => []
    | v :: vs => v.inspect :: inspectAll vs
  /-- How named values are shown. -/
  inspectFields : List (String × Value α) → List String
    | [] => []
    | (name, v) :: fs => (quote name ++ ": " ++ v.inspect) :: inspectFields fs

end Value

end Packrat
