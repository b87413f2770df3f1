set_option autoImplicit false
set_option relaxedAutoImplicit false

/-!
# Plain data

Trees are handed to other programs as plain data: nothing, texts, lists, and records whose entries
have a key each.

## Main definitions

* `Packrat.Plain` — plain data.
-/

namespace Packrat

/-- Plain data. -/
inductive Plain where
  | null
  | text (text : String)
  | list (items : List Plain)
  /-- Values by key, in the order in which they are written. -/
  | record (entries : List (String × Plain))
  deriving Inhabited

end Packrat
