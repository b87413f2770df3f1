import Packrat.Matching.Run
set_option autoImplicit false
set_option relaxedAutoImplicit false

/-!
# Moving a state along

Positions in a state count from some origin. When the origin moves back, every position in the state
grows by the same amount.

## Main definitions

* `Packrat.Run.shift` — a state whose positions have all grown.
-/

namespace Packrat

variable {ν α : Type}

/-- The same end so many positions later. -/
def Ending.shift (amount : Nat) (ending : Ending α) : Ending α :=
  { ending with stop := ending.stop + amount }

/-- The same event so many positions later. -/
def Event.shift (amount : Nat) : Event ν → Event ν
  | .enter depth name position => .enter depth name (position + amount)
  | .leave depth name position stop => .leave depth name (position + amount) (stop.map (· + amount))

/-- The same failures so many positions later. -/
def Frontier.shift (amount : Nat) (f : Frontier) : Frontier :=
  { f with position := f.position + amount }

/-- The same results so many positions later. -/
def Memo.shift (amount : Nat) (memo : Memo ν α) : Memo ν α :=
  ⟨.ofList <| memo.columns.toList.map fun (position, results) =>
    (position + amount, results.map fun (key, result) => (key, result.map (Ending.shift amount)))⟩

/-- The same state so many positions later. -/
def Run.shift [DecidableEq ν] (amount : Nat) (run : Run ν α) : Run ν α :=
  { run with
    frontier := run.frontier.shift amount
    memo := run.memo.map (·.shift amount)
    trace := run.trace.map fun events => events.map (·.shift amount) }

end Packrat
