import Packrat.Text.Sorted
import Packrat.Value.Basic
set_option autoImplicit false
set_option relaxedAutoImplicit false

/-!
# Merging values

The parts of a sequence produce values one after another, and the sequence produces what they
merge to. Fields are put together into one group, where a later value replaces an earlier one of
the same name. Everything else is lined up in order, with lists spliced in, and a single value
that did not come in a list stays as it is. A sequence cannot produce both: a value beside captured
fields would be lost.

The trips through a repetition are spliced instead: each value is one item, a list several.

## Main definitions

* `Packrat.mergeValues` — what the parts of a sequence produce together.
* `Packrat.Mixture` — fields and other values that cannot be merged.
* `Packrat.spliceValues` — what the trips through a repetition produce together.
-/

namespace Packrat

variable {α : Type}

/-- Gives a field a value: in its place if there is one of that name, else behind the others. -/
def putField (name : String) (value : Value α) :
    List (String × Value α) → List (String × Value α)
  | [] => [(name, value)]
  | (n, v) :: fs => if n = name then (n, value) :: fs else (n, v) :: putField name value fs

/-- The fields of two groups, where those of the second win. -/
def putFields (fields more : List (String × Value α)) : List (String × Value α) :=
  more.foldl (fun fs (name, value) => putField name value fs) fields

/-- Captured fields beside values that were not captured. -/
structure Mixture (α : Type) where
  /-- The names of the fields, in strictly increasing order. -/
  names : List String
  /-- The values that were not captured. -/
  loose : List (Value α)

/-- The wording of a mixture. -/
def Mixture.message [Inspect α] (m : Mixture α) : String :=
  "Cannot combine captured fields " ++
    (Value.items (m.names.map (.text : String → Value α))).inspect
    ++ " with uncaptured values " ++ (Value.items m.loose).inspect

/-- The values of a sequence as far as they are gathered. -/
structure Gathered (α : Type) where
  fields : List (String × Value α) := []
  loose : List (Value α) := []
  /-- Whether a list was spliced into the loose values. -/
  spliced : Bool := false

namespace Gathered

/-- Adds what one part of a sequence produced. -/
def add (g : Gathered α) : Option (Value α) → Gathered α
  | none => g
  | some (.fields fs) => { g with fields := putFields g.fields fs }
  | some (.items vs) => { g with loose := g.loose ++ vs, spliced := true }
  | some v => { g with loose := g.loose ++ [v] }

/-- What the gathered values merge to. -/
def merged (g : Gathered α) : Except (Mixture α) (Option (Value α)) :=
  if g.fields.isEmpty then
    match g.loose with
    | [] => .ok (if g.spliced then some (.items []) else none)
    | [v] => .ok (some (if g.spliced then .items [v] else v))
    | vs => .ok (some (.items vs))
  else if g.loose.isEmpty then .ok (some (.fields g.fields))
  else .error ⟨sorted (g.fields.map Prod.fst), g.loose⟩

end Gathered

/-- What the parts of a sequence produce together. -/
def mergeValues (values : List (Option (Value α))) : Except (Mixture α) (Option (Value α)) :=
  (values.foldl Gathered.add {}).merged

/-- What the trips through a repetition produce together, in order. -/
def spliceValues (values : List (Option (Value α))) : List (Value α) :=
  values.flatMap fun
    | none => []
    | some (.items vs) => vs
    | some v => [v]

end Packrat
