set_option autoImplicit false
set_option relaxedAutoImplicit false

/-!
# Text by position

A parse walks over one text, and every question it asks is about a position: which character
stands there, whether some characters stand there in a row, what lies between two positions.
Positions count characters from zero. A position past the end is allowed everywhere and finds
nothing.

## Main definitions

* `Packrat.Text` — the characters of a text, addressed by position.
* `Packrat.Text.char?`, `Packrat.Text.hasAt`, `Packrat.Text.slice` — the three questions.

## Main results

* `Packrat.Text.hasAt_iff` — characters stand at a position if what follows it begins with them.
-/

namespace Packrat

/-- The characters of a text, addressed by position. -/
structure Text where
  /-- The characters in order. -/
  chars : Array Char
  deriving DecidableEq

namespace Text

/-- The text that a string spells. -/
def ofString (s : String) : Text := ⟨s.toList.toArray⟩

/-- The string that a text spells. -/
def toString (t : Text) : String := String.ofList t.chars.toList

/-- The number of characters. -/
def size (t : Text) : Nat := t.chars.size

/-- The character at a position, if the position lies inside the text. -/
def char? (t : Text) (position : Nat) : Option Char := t.chars[position]?

/-- Whether the given characters stand in a row from a position on. Not even the empty row stands
past the end. -/
def hasAt (t : Text) : List Char → Nat → Bool
  | [], position => decide (position ≤ t.size)
  | c :: cs, position => t.char? position == some c && t.hasAt cs (position + 1)

/-- The characters from one position up to, but not including, another. -/
def slice (t : Text) (start stop : Nat) : String :=
  String.ofList (t.chars.extract start stop).toList

/-- A text is made of the characters of its string. -/
theorem toString_ofString (s : String) : (ofString s).toString = s := by
  simp [ofString, toString]

/-- A text is as long as its string. -/
@[simp] theorem size_ofString (s : String) : (ofString s).size = s.length := by
  simp [ofString, size, String.length_toList]

/-- Characters stand at a position if it lies inside the text and what follows it begins with
them. -/
theorem hasAt_iff (t : Text) (cs : List Char) (position : Nat) :
    t.hasAt cs position = true ↔ position ≤ t.size ∧ cs <+: t.chars.toList.drop position := by
  induction cs generalizing position with
  | nil => simp [hasAt]
  | cons c cs ih =>
    rw [hasAt, Bool.and_eq_true, ih, beq_iff_eq, char?, size]
    constructor
    · rintro ⟨hc, -, hcs⟩
      obtain ⟨hlt, hget⟩ := Array.getElem?_eq_some_iff.1 hc
      refine ⟨by omega, ?_⟩
      rw [List.drop_eq_getElem_cons (by simpa using hlt)]
      simpa [List.cons_prefix_cons, hget] using hcs
    · rintro ⟨-, hcs⟩
      have hlt : position < t.chars.size := by
        have := hcs.length_le
        simp at this
        omega
      rw [List.drop_eq_getElem_cons (by simpa using hlt), List.cons_prefix_cons] at hcs
      exact ⟨Array.getElem?_eq_some_iff.2 ⟨hlt, by simpa using hcs.1.symm⟩, by omega, hcs.2⟩

end Text

end Packrat
