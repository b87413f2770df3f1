import Packrat.Value.Basic
set_option autoImplicit false
set_option relaxedAutoImplicit false

/-!
# Builders

A grammar turns captured fields into objects by *builders*. A builder takes either named fields,
possibly none, or a single value, and gives a value, or nothing, or refuses because it has no use
for such arguments.

## Main definitions

* `Packrat.Arguments` — what a builder is given.
* `Packrat.Builder` — a builder and its name in the notation of rules.
* `Packrat.Arguments.ofProduct` — the arguments that the product of a match makes.
-/

namespace Packrat

/-- What a builder is given. -/
inductive Arguments (α : Type) where
  | named (fields : List (String × Value α))
  | single (value : Value α)

/-- A builder that was given arguments it does not take. -/
structure Refusal where
  /-- The name of the builder. -/
  builder : String
  deriving DecidableEq, Repr

/-- A way to make a value out of what a rule captured. -/
structure Builder (α : Type) where
  /-- The name of the builder in the notation of rules. -/
  name : String
  /-- The value that is made, if any. -/
  make : Arguments α → Except Refusal (Option (Value α))

variable {α : Type}

/-- The arguments that the product of a match makes: its fields by name, nothing at all, or the
value itself. -/
def Arguments.ofProduct : Option (Value α) → Arguments α
  | none => .named []
  | some (.fields fs) => .named fs
  | some v => .single v

/-- The wording of a refusal. -/
def Refusal.message (r : Refusal) : String := r.builder ++ " does not take these arguments"

end Packrat
