set_option autoImplicit false
set_option relaxedAutoImplicit false

/-!
# Sorted names

Names that are collected without order or number (what was expected at a position, the fields of
a value, the rules of a grammar) are kept as a strictly increasing list of strings, compared
character by character by code point. Two collections with the same members are then the same
list.

## Main definitions

* `Packrat.insertSorted` — adds a string to a strictly increasing list.
* `Packrat.sorted` — the members of a list in strictly increasing order.

## Main results

* `Packrat.mem_sorted`, `Packrat.pairwise_sorted` — the members, and their order.
-/

namespace Packrat

/-- Adds a string to a strictly increasing list, or leaves the list alone if it is a member. -/
def insertSorted (s : String) : List String → List String
  | [] => [s]
  | t :: ts =>
    if s < t then s :: t :: ts
    else if s = t then t :: ts
    else t :: insertSorted s ts

/-- The members of a list in strictly increasing order. -/
def sorted (names : List String) : List String := names.foldr insertSorted []

/-- Inserting adds just the one name. -/
theorem mem_insertSorted (s t : String) (ts : List String) :
    t ∈ insertSorted s ts ↔ t = s ∨ t ∈ ts := by
  induction ts with
  | nil => simp [insertSorted]
  | cons u us ih => unfold insertSorted; grind

/-- Sorting keeps the names. -/
theorem mem_sorted (s : String) (names : List String) : s ∈ sorted names ↔ s ∈ names := by
  induction names with
  | nil => simp [sorted]
  | cons t ts ih => rw [sorted, List.foldr_cons, ← sorted, mem_insertSorted, ih, List.mem_cons]

/-- Adding to a strictly increasing list leaves it strictly increasing. -/
theorem pairwise_insertSorted {s : String} {ts : List String} (h : ts.Pairwise (· < ·)) :
    (insertSorted s ts).Pairwise (· < ·) := by
  induction ts with
  | nil => simp [insertSorted]
  | cons t ts ih =>
    obtain ⟨ht, hts⟩ := List.pairwise_cons.1 h
    unfold insertSorted
    split
    · rename_i hst
      refine List.pairwise_cons.2 ⟨fun u hu => ?_, h⟩
      rcases List.mem_cons.1 hu with rfl | hu
      · exact hst
      · exact String.lt_trans hst (ht u hu)
    · split
      · exact h
      · rename_i hst hne
        refine List.pairwise_cons.2 ⟨fun u hu => ?_, ih hts⟩
        rcases (mem_insertSorted s u ts).1 hu with rfl | hu
        · exact String.not_le.1 fun hle => hne (String.le_antisymm hle (String.not_lt.1 hst))
        · exact ht u hu

/-- What is sorted is in strictly increasing order. -/
theorem pairwise_sorted (names : List String) : (sorted names).Pairwise (· < ·) := by
  induction names with
  | nil => exact List.Pairwise.nil
  | cons s names ih => exact pairwise_insertSorted ih

end Packrat
