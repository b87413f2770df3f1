import Std.Data.TreeMap
import Packrat.Matching.Outcome
set_option autoImplicit false
set_option relaxedAutoImplicit false

/-!
# Remembered results

A named rule starts with nothing bound, so how it matches depends on the position alone, and what
it reports in addition on whether reports are wanted. A parse may remember both, and never matches
a named rule twice at one place.

The results at one position are few, since there are only so many rules; they stand in a list. The
positions are many and are looked up in a tree.

## Main definitions

* `Packrat.Memo` — the results of named rules by rule, position and quietness.

## Main results

* `Packrat.Memo.find?_empty`, `Packrat.Memo.find?_insert` — what is found in a memo.
-/

namespace Packrat

/-- What a result is remembered by. -/
structure Memo.Key (ν : Type) where
  name : ν
  position : Nat
  /-- Whether the rule was matched without reporting failures. -/
  isQuiet : Bool
  deriving DecidableEq

/-- The results at one position. -/
abbrev Memo.Column (ν α : Type) := List ((ν × Bool) × Option (Ending α))

/-- The results of named rules; `none` stands for a rule that did not match. -/
structure Memo (ν α : Type) where
  columns : Std.TreeMap Nat (Memo.Column ν α) := {}

namespace Memo

variable {ν α : Type}

/-- The results at a position. -/
def column (memo : Memo ν α) (position : Nat) : Column ν α := memo.columns[position]?.getD []

/-- The remembered result, if there is one. -/
def find? [DecidableEq ν] (memo : Memo ν α) (key : Key ν) : Option (Option (Ending α)) :=
  (memo.column key.position).lookup (key.name, key.isQuiet)

/-- Remembers a result. -/
def insert (memo : Memo ν α) (key : Key ν) (result : Option (Ending α)) : Memo ν α :=
  ⟨memo.columns.insert key.position
    (((key.name, key.isQuiet), result) :: memo.column key.position)⟩

/-- All that is remembered, position by position. -/
def toList (memo : Memo ν α) : List (Key ν × Option (Ending α)) :=
  memo.columns.toList.flatMap fun (position, results) =>
    results.map fun ((name, isQuiet), result) => (⟨name, position, isQuiet⟩, result)

variable [DecidableEq ν]

/-- Nothing is found in an empty memo. -/
@[simp] theorem find?_empty (key : Key ν) : ({} : Memo ν α).find? key = none := by
  simp [find?, column]

/-- Behind an entry, its key finds it and every other key finds what it found before. -/
theorem find?_insert (memo : Memo ν α) (key other : Key ν) (result : Option (Ending α)) :
    (memo.insert key result).find? other =
      if other = key then some result else memo.find? other := by
  obtain ⟨x, p, q⟩ := key
  obtain ⟨y, r, u⟩ := other
  by_cases hp : p = r
  · subst hp
    by_cases hk : (y, u) = (x, q)
    · obtain ⟨rfl, rfl⟩ := Prod.mk.inj hk
      simp [find?, column, insert]
    · have hb : ((y, u) == (x, q)) = false := by simpa using hk
      have hne : ¬ (⟨y, p, u⟩ : Key ν) = ⟨x, p, q⟩ := fun h => by simp_all
      simp [find?, column, insert, List.lookup_cons, hb, hne]
  · have hne : ¬ (⟨y, r, u⟩ : Key ν) = ⟨x, p, q⟩ := fun h => by simp_all
    simp [find?, column, insert, Std.TreeMap.getElem?_insert, hp, hne]

end Memo

end Packrat
